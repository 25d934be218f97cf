/-
The blocks that are there for the type checking of specifications: those with a
specification closure, and those from which there is no way but to such a block.
-/
import Prusti.Lib.Unrolling
import Prusti.Mir.RealEdges

namespace Prusti.Mir

open Prusti.Lib Relation

variable {bb : BasicBlock}

universe u

structure BasicBlockNode where
  successors : HashSet BasicBlock
  predecessors : HashSet BasicBlock

/-- The reachable blocks with their edges. -/
abbrev BbGraph := HashMap BasicBlock BasicBlockNode

namespace BbGraph

variable {ε : Type}

def touch (bbGraph : BbGraph) (bb : BasicBlock) : BbGraph :=
  if bbGraph.contains bb then bbGraph else bbGraph.insert bb ⟨HashMap.empty, HashMap.empty⟩

def addEdge (bbGraph : BbGraph) (source target : BasicBlock) : Except (Stop ε) BbGraph := do
  let bbGraph := bbGraph.touch target
  let node ← Stop.orPanic (bbGraph.get? target)
  let bbGraph := bbGraph.insert target
    { node with predecessors := HashSet.insert node.predecessors source }
  let node ← Stop.orPanic (bbGraph.get? source)
  return bbGraph.insert source
    { node with successors := HashSet.insert node.successors target }

end BbGraph

section Search

variable {ε : Type} (order : IterOrder) (bbGraph : BbGraph)

/-- Walk back over the predecessors that have one successor.  Blocks that were found
before are walked over again. -/
def blocksDefinitelyLeadingToFrom :
    Nat → BasicBlock → HashSet BasicBlock → Except (Stop ε) (HashSet BasicBlock)
  | 0, _, _ => .error .outOfFuel
  | fuel + 1, target, blocks => do
    let node ← Stop.orPanic (bbGraph.get? target)
    ((order.call target).iter 0 node.predecessors.keys).foldlM
      (fun blocks pred => do
        let predNode ← Stop.orPanic (bbGraph.get? pred)
        if predNode.successors.keys.length = 1 then
          blocksDefinitelyLeadingToFrom fuel pred (HashSet.insert blocks pred)
        else return blocks)
      blocks

def blocksDefinitelyLeadingTo (fuel : Nat) (target : BasicBlock) :
    Except (Stop ε) (HashSet BasicBlock) :=
  blocksDefinitelyLeadingToFrom order bbGraph fuel target HashMap.empty

variable (isSpecBasicBlock : BasicBlock → Bool)

/-- Gather a block with a specification closure, and what leads to it. -/
def gatherSpecBasicBlock (fuel : Nat) (specBasicBlocks : HashSet BasicBlock)
    (bb : BasicBlock) : Except (Stop ε) (HashSet BasicBlock) := do
  if isSpecBasicBlock bb then
    let blocks ← blocksDefinitelyLeadingTo order bbGraph fuel bb
    return HashSet.union (HashSet.insert specBasicBlocks bb) blocks
  else return specBasicBlocks

def getNonspecBasicBlocks (fuel : Nat) : Except (Stop ε) (List BasicBlock) := do
  let specBasicBlocks ← (order.iter 0 bbGraph.keys).foldlM
    (gatherSpecBasicBlock order bbGraph isSpecBasicBlock fuel) HashMap.empty
  return bbGraph.keys.filter fun bb => !specBasicBlocks.contains bb

end Search

section Build

variable {Ty : Type u} {ε : Type} (body : Body Ty)

/-- Record an edge, and put its target on the stack unless it was visited. -/
def visitEdge (visited : HashSet BasicBlock) (source : BasicBlock)
    (state : List BasicBlock × BbGraph) (target : BasicBlock) :
    Except (Stop ε) (List BasicBlock × BbGraph) := do
  let bbGraph ← state.2.addEdge source target
  return (if visited.contains target then state.1 else target :: state.1, bbGraph)

/-- Visit the blocks on a stack, listed from its top. -/
def buildBbGraph : Nat → List BasicBlock → HashSet BasicBlock → BbGraph → Except (Stop ε) BbGraph
  | _, [], _, bbGraph => .ok bbGraph
  | 0, _ :: _, _, _ => .error .outOfFuel
  | fuel + 1, source :: toVisit, visited, bbGraph => do
    if visited.contains source then buildBbGraph fuel toVisit visited bbGraph
    else
      let visited := HashSet.insert visited source
      let state ← (body.realSuccessors source).foldlM (visitEdge visited source)
        (toVisit, bbGraph.touch source)
      buildBbGraph fuel state.1 visited state.2

/-- The reachable blocks that are not there for specifications.  The dominators are
asked of reachable blocks only. -/
def buildNonspecBasicBlocks (order : IterOrder) (isSpecBasicBlock : BasicBlock → Bool)
    (fuel : Nat) : Except (Stop ε) (List BasicBlock) := do
  Stop.assert (body.indices.all fun bb => body.realSuccessors bb = [] ∨ body.isReachable bb)
  let bbGraph ← buildBbGraph body fuel [startBlock] HashMap.empty HashMap.empty
  getNonspecBasicBlocks order bbGraph isSpecBasicBlock fuel

/-- The block has one successor. -/
def LeadsTo (bb next : BasicBlock) : Prop :=
  ∀ target, target ∈ body.realSuccessors bb ↔ target = next

/-- The search ends, and a reachable block is left out exactly if it leads to a block
with a specification closure, or is one. -/
def FindsSpecBlocks (order : IterOrder) (isSpecBasicBlock : BasicBlock → Bool) : Prop :=
  ∃ fuel nonspec,
    buildNonspecBasicBlocks body order isSpecBasicBlock fuel =
        (.ok nonspec : Except (Stop Empty) _) ∧
      ∀ bb, Reaches body.realSuccessors startBlock bb →
        (bb ∉ nonspec ↔
          ∃ target, ReflTransGen (LeadsTo body) bb target ∧ isSpecBasicBlock target = true)

end Build

section Graph

variable {ε : Type}

/-- The graph has these blocks, with these successors and these predecessors. -/
structure Records (bbGraph : BbGraph) (blocks : BasicBlock → Prop)
    (succ pred : BasicBlock → BasicBlock → Prop) : Prop where
  get?_some : ∀ bb, blocks bb → ∃ node, bbGraph.get? bb = some node ∧
    (∀ other, node.successors.contains other = true ↔ succ bb other) ∧
    ∀ other, node.predecessors.contains other = true ↔ pred bb other
  get?_none : ∀ bb, ¬ blocks bb → bbGraph.get? bb = none
  of_succ : ∀ bb other, succ bb other → blocks bb
  of_pred : ∀ bb other, pred bb other → blocks bb

namespace Records

variable {bbGraph : BbGraph} {blocks blocks' : BasicBlock → Prop}
  {succ pred succ' pred' : BasicBlock → BasicBlock → Prop}

theorem empty : Records HashMap.empty (fun _ => False) (fun _ _ => False) fun _ _ => False where
  get?_some := fun _ h => h.elim
  get?_none := fun _ _ => rfl
  of_succ := fun _ _ h => h
  of_pred := fun _ _ h => h

section

variable (h : Records bbGraph blocks succ pred)

include h

theorem congr (hblocks : ∀ bb, blocks bb ↔ blocks' bb)
    (hsucc : ∀ bb other, succ bb other ↔ succ' bb other)
    (hpred : ∀ bb other, pred bb other ↔ pred' bb other) : Records bbGraph blocks' succ' pred' := by
  obtain rfl : blocks = blocks' := funext fun bb => propext (hblocks bb)
  obtain rfl : succ = succ' := funext₂ fun bb other => propext (hsucc bb other)
  obtain rfl : pred = pred' := funext₂ fun bb other => propext (hpred bb other)
  exact h

theorem contains_iff (bb : BasicBlock) : bbGraph.contains bb = true ↔ blocks bb := by
  rw [HashMap.contains_iff]
  constructor
  · rintro ⟨node, hnode⟩
    by_contra hbb
    rw [h.get?_none bb hbb] at hnode
    cases hnode
  · intro hbb
    obtain ⟨node, hnode, -⟩ := h.get?_some bb hbb
    exact ⟨node, hnode⟩

/-- What an insertion at a block changes is the node of this block. -/
theorem insert {node : BasicBlockNode}
    (hsucc : ∀ other, node.successors.contains other = true ↔ succ' bb other)
    (hpred : ∀ other, node.predecessors.contains other = true ↔ pred' bb other)
    (hrest : ∀ source, source ≠ bb → ∀ other,
      (succ' source other ↔ succ source other) ∧ (pred' source other ↔ pred source other)) :
    Records (bbGraph.insert bb node) (fun other => blocks other ∨ other = bb) succ' pred' where
  get?_some := by
    intro source hsource
    rw [HashMap.get?_insert]
    by_cases hsame : bb = source
    · subst hsame
      exact ⟨node, if_pos BEq.rfl, hsucc, hpred⟩
    · obtain ⟨old, hold, hsucc, hpred⟩ := h.get?_some source (hsource.resolve_right (Ne.symm hsame))
      refine ⟨old, ?_, fun other => ?_, fun other => ?_⟩
      · rw [if_neg (by simpa using hsame), hold]
      · rw [hsucc, (hrest source (Ne.symm hsame) other).1]
      · rw [hpred, (hrest source (Ne.symm hsame) other).2]
  get?_none := by
    intro source hsource
    rw [not_or] at hsource
    rw [HashMap.get?_insert, if_neg (by simpa using Ne.symm hsource.2)]
    exact h.get?_none source hsource.1
  of_succ := by
    intro source other hother
    by_cases hsame : source = bb
    · exact .inr hsame
    · exact .inl (h.of_succ source other ((hrest source hsame other).1.mp hother))
  of_pred := by
    intro source other hother
    by_cases hsame : source = bb
    · exact .inr hsame
    · exact .inl (h.of_pred source other ((hrest source hsame other).2.mp hother))

theorem update (hbb : blocks bb) {node : BasicBlockNode}
    (hsucc : ∀ other, node.successors.contains other = true ↔ succ' bb other)
    (hpred : ∀ other, node.predecessors.contains other = true ↔ pred' bb other)
    (hrest : ∀ source, source ≠ bb → ∀ other,
      (succ' source other ↔ succ source other) ∧ (pred' source other ↔ pred source other)) :
    Records (bbGraph.insert bb node) blocks succ' pred' := by
  refine (h.insert hsucc hpred hrest).congr (fun other => ?_) (fun _ _ => Iff.rfl)
    fun _ _ => Iff.rfl
  exact ⟨fun hother => hother.elim id fun heq => heq ▸ hbb, .inl⟩

theorem touch (bb : BasicBlock) :
    Records (bbGraph.touch bb) (fun other => blocks other ∨ other = bb) succ pred := by
  unfold BbGraph.touch
  by_cases hbb : blocks bb
  · rw [if_pos ((h.contains_iff bb).mpr hbb)]
    refine h.congr (fun other => ?_) (fun _ _ => Iff.rfl) fun _ _ => Iff.rfl
    exact ⟨.inl, fun hother => hother.elim id fun heq => heq ▸ hbb⟩
  · rw [if_neg (fun hcontains => hbb ((h.contains_iff bb).mp hcontains))]
    refine h.insert (fun other => ?_) (fun other => ?_) fun _ _ _ => ⟨Iff.rfl, Iff.rfl⟩
    · exact iff_of_false Bool.false_ne_true fun hsucc => hbb (h.of_succ bb other hsucc)
    · exact iff_of_false Bool.false_ne_true fun hpred => hbb (h.of_pred bb other hpred)

/-- Recording an edge from a block of the graph. -/
theorem addEdge {source : BasicBlock} (hsource : blocks source) (target : BasicBlock) :
    ∃ bbGraph', bbGraph.addEdge source target = (.ok bbGraph' : Except (Stop ε) _) ∧
      Records bbGraph' (fun bb => blocks bb ∨ bb = target)
        (fun bb other => succ bb other ∨ (bb = source ∧ other = target))
        fun bb other => pred bb other ∨ (bb = target ∧ other = source) := by
  have htouch := h.touch target
  obtain ⟨node, hnode, hsucc, hpred⟩ := htouch.get?_some target (.inr rfl)
  let back := (bbGraph.touch target).insert target
    { node with predecessors := HashSet.insert node.predecessors source }
  have hback : Records back (fun bb => blocks bb ∨ bb = target) succ
      fun bb other => pred bb other ∨ (bb = target ∧ other = source) := by
    refine htouch.update (.inr rfl) hsucc (fun other => ?_) fun bb hbb other => ⟨Iff.rfl, ?_⟩
    · rw [HashSet.contains_insert_iff, hpred, eq_self, true_and]
    · exact or_iff_left fun heq => hbb heq.1
  obtain ⟨node', hnode', hsucc', hpred'⟩ := hback.get?_some source (.inl hsource)
  refine ⟨back.insert source
    { node' with successors := HashSet.insert node'.successors target }, ?_, ?_⟩
  · simp only [BbGraph.addEdge, bind_eq_ok_iff, Stop.orPanic_eq_ok_iff]
    exact ⟨node, hnode, node', hnode', rfl⟩
  · refine hback.update (.inl hsource) (fun other => ?_) hpred' fun bb hbb other =>
      ⟨?_, Iff.rfl⟩
    · rw [HashSet.contains_insert_iff, hsucc', eq_self, true_and]
    · exact or_iff_left fun heq => hbb heq.1

/-- Recording the edges to some targets. -/
theorem visitEdges {source : BasicBlock} (hsource : blocks source) (visited : HashSet BasicBlock)
    (toVisit targets : List BasicBlock) :
    ∃ bbGraph', targets.foldlM (visitEdge visited source) (toVisit, bbGraph) =
        (.ok ((targets.filter (!visited.contains ·)).reverse ++ toVisit, bbGraph') :
          Except (Stop ε) _) ∧
      Records bbGraph' (fun bb => blocks bb ∨ bb ∈ targets)
        (fun bb other => succ bb other ∨ (bb = source ∧ other ∈ targets))
        fun bb other => pred bb other ∨ (bb ∈ targets ∧ other = source) := by
  induction targets generalizing bbGraph blocks succ pred toVisit with
  | nil => exact ⟨bbGraph, rfl, h.congr (by simp) (by simp) (by simp)⟩
  | cons target targets ih =>
    obtain ⟨middle, hmiddle, hrecords⟩ := h.addEdge (ε := ε) hsource target
    obtain ⟨bbGraph', hrest, hrecords'⟩ := ih hrecords (.inl hsource)
      (if visited.contains target then toVisit else target :: toVisit)
    refine ⟨bbGraph', ?_, hrecords'.congr (fun bb => ?_) (fun bb other => ?_) fun bb other => ?_⟩
    · have hstep : visitEdge visited source (toVisit, bbGraph) target =
          (.ok (if visited.contains target then toVisit else target :: toVisit, middle) :
            Except (Stop ε) _) := by
        rw [visitEdge, hmiddle]
        rfl
      rw [List.foldlM_cons, hstep]
      refine hrest.trans (congrArg (fun left => Except.ok (left, bbGraph')) ?_)
      cases hvisited : visited.contains target <;> simp [hvisited]
    · rw [List.mem_cons, or_assoc]
    · rw [List.mem_cons, or_assoc, and_or_left]
    · rw [List.mem_cons, or_assoc, or_and_right]

end

end Records

section Visited

variable {Ty : Type u} (body : Body Ty)

/-- The state of the loop that builds the graph. -/
structure BuildInv (toVisit : List BasicBlock) (visited : HashSet BasicBlock)
    (bbGraph : BbGraph) : Prop where
  records : Records bbGraph
    (fun bb => visited.contains bb = true ∨
      ∃ source, visited.contains source = true ∧ bb ∈ body.realSuccessors source)
    (fun bb other => visited.contains bb = true ∧ other ∈ body.realSuccessors bb)
    fun bb other => visited.contains other = true ∧ bb ∈ body.realSuccessors other
  reached : ∀ bb, visited.contains bb = true ∨ bb ∈ toVisit →
    Reaches body.realSuccessors startBlock bb
  next : ∀ bb, visited.contains bb = true → ∀ target ∈ body.realSuccessors bb,
    visited.contains target = true ∨ target ∈ toVisit
  start : visited.contains startBlock = true ∨ startBlock ∈ toVisit

/-- The graph of the reachable blocks. -/
abbrev RecordsReachable (bbGraph : BbGraph) : Prop :=
  Records bbGraph (Reaches body.realSuccessors startBlock)
    (fun bb other => Reaches body.realSuccessors startBlock bb ∧ other ∈ body.realSuccessors bb)
    fun bb other => Reaches body.realSuccessors startBlock other ∧ bb ∈ body.realSuccessors other

/-- The edges that are still to be recorded. -/
def edgesLeft (visited : HashSet BasicBlock) : Nat :=
  ∑ bb ∈ Finset.range body.basicBlocks.length,
    if visited.contains bb then 0 else (body.realSuccessors bb).length

variable {body} {toVisit : List BasicBlock} {visited : HashSet BasicBlock} {bbGraph : BbGraph}
  {source : BasicBlock}

theorem edgesLeft_insert (hlt : source < body.basicBlocks.length)
    (hsource : visited.contains source = false) :
    edgesLeft body visited =
      (body.realSuccessors source).length + edgesLeft body (HashSet.insert visited source) := by
  have hmem := Finset.mem_range.mpr hlt
  rw [edgesLeft, edgesLeft, ← Finset.add_sum_erase _ _ hmem,
    ← Finset.add_sum_erase _ (fun bb =>
      if (HashSet.insert visited source).contains bb then 0
      else (body.realSuccessors bb).length) hmem, hsource, HashSet.contains_insert]
  simp only [Bool.false_eq_true, if_false, BEq.rfl, Bool.true_or, if_true, Nat.zero_add]
  congr 1
  refine Finset.sum_congr rfl fun bb hbb => ?_
  have hne := Finset.ne_of_mem_erase hbb
  rw [HashSet.contains_insert, beq_false_of_ne (Ne.symm hne), Bool.false_or]

theorem lt_of_reaches (h : Reaches body.realSuccessors startBlock bb) :
    bb < body.basicBlocks.length := by
  rcases ReflTransGen.cases_tail h with rfl | ⟨pred, -, hstep⟩
  · exact body.startBlock_lt
  · exact Body.target_lt_of_mem_successors (Body.realSuccessors_subset _ hstep)

namespace BuildInv

theorem initial : BuildInv body [startBlock] HashMap.empty HashMap.empty where
  records := Records.empty.congr (by simp [HashMap.contains_eq_isSome])
    (by simp [HashMap.contains_eq_isSome]) (by simp [HashMap.contains_eq_isSome])
  reached := by
    rintro bb (h | h)
    · cases h
    · rw [List.mem_singleton.mp h]
      exact .refl
  next := by
    intro bb h
    cases h
  start := .inr List.mem_cons_self

theorem skip (h : BuildInv body (source :: toVisit) visited bbGraph)
    (hsource : visited.contains source = true) : BuildInv body toVisit visited bbGraph where
  records := h.records
  reached := fun bb hbb => h.reached bb (hbb.imp_right (List.mem_cons_of_mem _))
  next := fun bb hbb target htarget => (h.next bb hbb target htarget).elim .inl fun hmem =>
    (List.mem_cons.mp hmem).elim (fun heq => .inl (heq ▸ hsource)) .inr
  start := h.start.elim .inl fun hmem =>
    (List.mem_cons.mp hmem).elim (fun heq => .inl (heq ▸ hsource)) .inr

/-- Visiting the block on the top of the stack. -/
theorem visit (h : BuildInv body (source :: toVisit) visited bbGraph) :
    ∃ bbGraph', (body.realSuccessors source).foldlM
        (visitEdge (HashSet.insert visited source) source) (toVisit, bbGraph.touch source) =
      (.ok (((body.realSuccessors source).filter
        (!(HashSet.insert visited source).contains ·)).reverse ++ toVisit, bbGraph') :
          Except (Stop ε) _) ∧
      BuildInv body (((body.realSuccessors source).filter
        (!(HashSet.insert visited source).contains ·)).reverse ++ toVisit)
        (HashSet.insert visited source) bbGraph' := by
  obtain ⟨bbGraph', hfold, hrecords⟩ := (h.records.touch source).visitEdges (ε := ε) (.inr rfl)
    (HashSet.insert visited source) toVisit (body.realSuccessors source)
  have hleft : ∀ bb, bb ∈ ((body.realSuccessors source).filter
      (!(HashSet.insert visited source).contains ·)).reverse ++ toVisit ↔
        (bb ∈ body.realSuccessors source ∧
          (HashSet.insert visited source).contains bb = false) ∨ bb ∈ toVisit := by
    intro bb
    rw [List.mem_append, List.mem_reverse, List.mem_filter, Bool.not_eq_true']
  refine ⟨bbGraph', hfold, hrecords.congr (fun bb => ?_) (fun bb other => ?_)
    (fun bb other => ?_), ?_, ?_, ?_⟩
  · rw [HashSet.contains_insert_iff]
    constructor
    · rintro (((hbb | ⟨other, hother, hbb⟩) | hbb) | hbb)
      · exact .inl (.inl hbb)
      · exact .inr ⟨other, (HashSet.contains_insert_iff _ _ _).mpr (.inl hother), hbb⟩
      · exact .inl (.inr hbb)
      · exact .inr ⟨source, (HashSet.contains_insert_iff _ _ _).mpr (.inr rfl), hbb⟩
    · rintro ((hbb | hbb) | ⟨other, hother, hbb⟩)
      · exact .inl (.inl (.inl hbb))
      · exact .inl (.inr hbb)
      · rcases (HashSet.contains_insert_iff _ _ _).mp hother with hother | rfl
        · exact .inl (.inl (.inr ⟨other, hother, hbb⟩))
        · exact .inr hbb
  · rw [HashSet.contains_insert_iff, or_and_right]
    refine or_congr_right (and_congr_right fun heq => ?_)
    rw [heq]
  · rw [HashSet.contains_insert_iff, or_and_right, @and_comm (other = source)]
    refine or_congr_right (and_congr_left fun heq => ?_)
    rw [heq]
  · intro bb hbb
    have hsource := h.reached source (.inr List.mem_cons_self)
    rw [HashSet.contains_insert_iff, hleft] at hbb
    rcases hbb with (hbb | rfl) | ⟨hbb, -⟩ | hbb
    · exact h.reached bb (.inl hbb)
    · exact hsource
    · exact hsource.tail hbb
    · exact h.reached bb (.inr (List.mem_cons_of_mem _ hbb))
  · intro bb hbb target htarget
    rw [hleft]
    cases hvisited : (HashSet.insert visited source).contains target with
    | true => exact .inl rfl
    | false =>
      refine .inr ?_
      rcases (HashSet.contains_insert_iff _ _ _).mp hbb with hbb | rfl
      · rcases h.next bb hbb target htarget with hmem | hmem
        · rw [(HashSet.contains_insert_iff _ _ _).mpr (.inl hmem)] at hvisited
          cases hvisited
        · rcases List.mem_cons.mp hmem with rfl | hmem
          · rw [(HashSet.contains_insert_iff _ _ _).mpr (.inr rfl)] at hvisited
            cases hvisited
          · exact .inr hmem
      · exact .inl ⟨htarget, rfl⟩
  · rw [HashSet.contains_insert_iff, hleft]
    rcases h.start with hstart | hstart
    · exact .inl (.inl hstart)
    · rcases List.mem_cons.mp hstart with heq | hstart
      · exact .inl (.inr heq)
      · exact .inr (.inr hstart)

/-- When the stack is empty, every reachable block was visited. -/
theorem recordsReachable (h : BuildInv body [] visited bbGraph) :
    RecordsReachable body bbGraph := by
  have hvisited : ∀ bb, visited.contains bb = true ↔ Reaches body.realSuccessors startBlock bb := by
    refine fun bb => ⟨fun hbb => h.reached bb (.inl hbb), fun hreach => ?_⟩
    induction hreach with
    | refl => exact h.start.resolve_right List.not_mem_nil
    | tail _ hstep ih => exact (h.next _ ih _ hstep).resolve_right List.not_mem_nil
  refine h.records.congr (fun bb => ?_) (fun bb other => ?_) fun bb other => ?_
  · simp only [hvisited]
    refine ⟨fun hbb => hbb.elim id ?_, .inl⟩
    rintro ⟨source, hsource, hstep⟩
    exact hsource.tail hstep
  · rw [hvisited]
  · rw [hvisited]

/-- The graph that is built is that of the reachable blocks. -/
theorem run {fuel : Nat} {result : BbGraph} (h : BuildInv body toVisit visited bbGraph)
    (hok : buildBbGraph body fuel toVisit visited bbGraph = (.ok result : Except (Stop ε) _)) :
    RecordsReachable body result := by
  induction fuel generalizing toVisit visited bbGraph with
  | zero =>
    cases toVisit with
    | nil =>
      cases hok
      exact h.recordsReachable
    | cons => cases hok
  | succ fuel ih =>
    cases toVisit with
    | nil =>
      cases hok
      exact h.recordsReachable
    | cons source toVisit =>
      rw [buildBbGraph] at hok
      split at hok
      · next hsource => exact ih (h.skip hsource) hok
      · obtain ⟨bbGraph', hfold, hinv⟩ := h.visit (ε := ε)
        dsimp only at hok
        rw [hfold] at hok
        exact ih hinv hok

/-- More fuel does not matter. -/
theorem buildBbGraph_mono {fuel more : Nat} {result : BbGraph} (hle : fuel ≤ more)
    (hok : buildBbGraph body fuel toVisit visited bbGraph = (.ok result : Except (Stop ε) _)) :
    buildBbGraph body more toVisit visited bbGraph = (.ok result : Except (Stop ε) _) := by
  induction fuel generalizing more toVisit visited bbGraph with
  | zero =>
    cases toVisit with
    | nil => cases more <;> exact hok
    | cons => cases hok
  | succ fuel ih =>
    cases more with
    | zero => omega
    | succ more =>
      cases toVisit with
      | nil => exact hok
      | cons source toVisit =>
        rw [buildBbGraph] at hok ⊢
        split
        · next hsource =>
            rw [if_pos hsource] at hok
            exact ih (Nat.le_of_succ_le_succ hle) hok
        · next hsource =>
            rw [if_neg hsource] at hok
            obtain ⟨state, hstate, hrest⟩ := exists_of_bind_eq_ok hok
            exact (bind_eq_ok_iff _ _ _).mpr
              ⟨state, hstate, ih (Nat.le_of_succ_le_succ hle) hrest⟩

/-- The loop ends: every pass takes a block off the stack, and every edge puts one there
once at most. -/
theorem exists_buildBbGraph {fuel : Nat} (h : BuildInv body toVisit visited bbGraph)
    (hfuel : toVisit.length + edgesLeft body visited ≤ fuel) :
    ∃ result, buildBbGraph body fuel toVisit visited bbGraph =
      (.ok result : Except (Stop ε) _) := by
  induction fuel generalizing toVisit visited bbGraph with
  | zero =>
    obtain rfl : toVisit = [] := List.length_eq_zero_iff.mp (by omega)
    exact ⟨bbGraph, rfl⟩
  | succ fuel ih =>
    cases toVisit with
    | nil => exact ⟨bbGraph, rfl⟩
    | cons source toVisit =>
      rw [List.length_cons] at hfuel
      rw [buildBbGraph]
      split
      · next hsource => exact ih (h.skip hsource) (by omega)
      · next hsource =>
          obtain ⟨bbGraph', hfold, hinv⟩ := h.visit (ε := ε)
          dsimp only
          rw [hfold]
          have hlt : source < body.basicBlocks.length :=
            lt_of_reaches (h.reached source (.inr List.mem_cons_self))
          have hedges := edgesLeft_insert hlt (Bool.eq_false_iff.mpr hsource)
          have hpushed := List.length_filter_le
            (!(HashSet.insert visited source).contains ·) (body.realSuccessors source)
          refine ih hinv ?_
          rw [List.length_append, List.length_reverse]
          omega

end BuildInv

end Visited

end Graph

section Walk

variable {Ty : Type u} {ε : Type} {body : Body Ty} {order : IterOrder} {bbGraph : BbGraph}
  {fuel : Nat} {target pred : BasicBlock}

def isSingle (bbGraph : BbGraph) (bb : BasicBlock) : Bool :=
  (bbGraph.get? bb).any fun node => node.successors.keys.length = 1

/-- The predecessors with one successor, in the order in which they are walked over. -/
def singlePreds (order : IterOrder) (bbGraph : BbGraph) (target : BasicBlock) : List BasicBlock :=
  match bbGraph.get? target with
  | some node => ((order.call target).iter 0 node.predecessors.keys).filter (isSingle bbGraph)
  | none => []

section

variable (h : RecordsReachable body bbGraph)

include h

theorem isSingle_iff (hreach : Reaches body.realSuccessors startBlock pred)
    (htarget : target ∈ body.realSuccessors pred) :
    isSingle bbGraph pred = true ↔ LeadsTo body pred target := by
  obtain ⟨node, hnode, hsucc, -⟩ := h.get?_some pred hreach
  have hmem : ∀ other, node.successors.contains other = true ↔
      other ∈ body.realSuccessors pred := fun other => by rw [hsucc, and_iff_right hreach]
  rw [isSingle, hnode, Option.any_some, decide_eq_true_iff, HashMap.length_keys_eq_one_iff]
  simp only [hmem]
  constructor
  · rintro ⟨other, hother⟩
    rw [(hother target).mp htarget]
    exact hother
  · exact fun hleads => ⟨target, hleads⟩

theorem edge_singlePreds_iff :
    Edge (singlePreds order bbGraph) target pred ↔
      Reaches body.realSuccessors startBlock pred ∧ LeadsTo body pred target := by
  constructor
  · intro hedge
    rw [Edge, singlePreds] at hedge
    split at hedge
    · next node hnode =>
        obtain ⟨hkey, hsingle⟩ := List.mem_filter.mp hedge
        rw [IterOrder.mem_iter, ← HashMap.contains_iff_mem_keys] at hkey
        have hblock : Reaches body.realSuccessors startBlock target := by
          by_contra hnone
          rw [h.get?_none target hnone] at hnode
          cases hnode
        obtain ⟨node', hnode', -, hpred⟩ := h.get?_some target hblock
        rw [hnode] at hnode'
        cases hnode'
        obtain ⟨hreach, hmem⟩ := (hpred pred).mp hkey
        exact ⟨hreach, (isSingle_iff h hreach hmem).mp hsingle⟩
    · cases hedge
  · rintro ⟨hreach, hleads⟩
    have hmem := (hleads target).mpr rfl
    obtain ⟨node, hnode, -, hpred⟩ := h.get?_some target (hreach.tail hmem)
    rw [Edge, singlePreds, hnode, List.mem_filter, IterOrder.mem_iter,
      ← HashMap.contains_iff_mem_keys, hpred]
    exact ⟨⟨hreach, hmem⟩, (isSingle_iff h hreach hmem).mpr hleads⟩

/-- The walk back is the graph of these predecessors, unrolled. -/
theorem blocksDefinitelyLeadingToFrom_eq (hreach : Reaches body.realSuccessors startBlock target)
    (blocks : HashSet BasicBlock) :
    blocksDefinitelyLeadingToFrom order bbGraph fuel target blocks =
      (Stop.orOutOfFuel (unroll (singlePreds order bbGraph) fuel target) >>= fun trace =>
        .ok (trace.tail.foldl HashSet.insert blocks) : Except (Stop ε) _) := by
  induction fuel generalizing target blocks with
  | zero => rfl
  | succ fuel ih =>
    obtain ⟨node, hnode, -, hpred⟩ := h.get?_some target hreach
    have hreached : ∀ pred ∈ (order.call target).iter 0 node.predecessors.keys,
        Reaches body.realSuccessors startBlock pred := fun pred hmem => by
      rw [IterOrder.mem_iter, ← HashMap.contains_iff_mem_keys, hpred] at hmem
      exact hmem.1
    rw [blocksDefinitelyLeadingToFrom, hnode]
    refine (@foldlM_search _ _ _ HashSet.insert _ (unroll (singlePreds order bbGraph) fuel)
      (isSingle bbGraph) _ (fun pred hmem hsingle state => ?_)
      (fun pred hmem hsingle state => ?_) blocks).trans ?_
    · obtain ⟨predNode, hpredNode, -⟩ := h.get?_some pred (hreached pred hmem)
      rw [isSingle, hpredNode, Option.any_some, decide_eq_true_iff] at hsingle
      rw [hpredNode]
      change (if _ then _ else _) = _
      rw [if_pos hsingle, ih (hreached pred hmem)]
      cases hunroll : unroll (singlePreds order bbGraph) fuel pred with
      | none => rfl
      | some trace =>
        obtain ⟨rest, rfl⟩ := exists_eq_cons_of_unroll hunroll
        rfl
    · obtain ⟨predNode, hpredNode, -⟩ := h.get?_some pred (hreached pred hmem)
      rw [isSingle, hpredNode, Option.any_some, decide_eq_false_iff_not] at hsingle
      rw [hpredNode]
      change (if _ then _ else _) = _
      rw [if_neg hsingle]
      rfl
    · rw [unroll]
      have hnext : singlePreds order bbGraph target =
          ((order.call target).iter 0 node.predecessors.keys).filter (isSingle bbGraph) := by
        rw [singlePreds, hnode]
      rw [hnext]
      cases (((order.call target).iter 0 node.predecessors.keys).filter
        (isSingle bbGraph)).mapM (unroll (singlePreds order bbGraph) fuel) <;> rfl

theorem reaches_singlePreds_iff (htarget : Reaches body.realSuccessors startBlock target) :
    Reaches (singlePreds order bbGraph) target bb ↔
      Reaches body.realSuccessors startBlock bb ∧ ReflTransGen (LeadsTo body) bb target := by
  constructor
  · intro hpath
    induction hpath with
    | refl => exact ⟨htarget, .refl⟩
    | tail _ hstep ih =>
      obtain ⟨hreach, hleads⟩ := (edge_singlePreds_iff h).mp hstep
      exact ⟨hreach, .head hleads ih.2⟩
  · rintro ⟨hreach, hpath⟩
    induction hpath using ReflTransGen.head_induction_on with
    | refl => exact .refl
    | @head pred next hstep _ ih =>
      exact (ih (hreach.tail ((hstep next).mpr rfl))).tail
        ((edge_singlePreds_iff h).mpr ⟨hreach, hstep⟩)

end

theorem reaches_of_leadsTo (hreach : Reaches body.realSuccessors startBlock bb)
    (h : ReflTransGen (LeadsTo body) bb target) :
    Reaches body.realSuccessors startBlock target := by
  induction h with
  | refl => exact hreach
  | tail _ hstep ih => exact ih.tail ((hstep _).mpr rfl)

theorem leadsTo_deterministic {next next' : BasicBlock} (h : LeadsTo body bb next)
    (h' : LeadsTo body bb next') : next = next' :=
  (h' next).mp ((h next).mpr rfl)

/-- The walk back from a block meets no cycle unless the block lies on one. -/
theorem acyclicFrom_singlePreds_iff (h : RecordsReachable body bbGraph)
    (htarget : Reaches body.realSuccessors startBlock target) :
    AcyclicFrom (singlePreds order bbGraph) target ↔ ¬ TransGen (LeadsTo body) target target := by
  constructor
  · intro hacyclic hcycle
    obtain ⟨next, hstep, hback⟩ := TransGen.head'_iff.mp hcycle
    have hnext := htarget.tail ((hstep next).mpr rfl)
    exact hacyclic target .refl (.tail' ((reaches_singlePreds_iff h htarget).mpr ⟨hnext, hback⟩)
      ((edge_singlePreds_iff h).mpr ⟨htarget, hstep⟩))
  · intro hnone bb hpath hcycle
    obtain ⟨hreach, hleads⟩ := (reaches_singlePreds_iff h htarget).mp hpath
    refine hnone (transGen_self_of_deterministic leadsTo_deterministic ?_ hleads)
    obtain ⟨pred, hback, hstep⟩ := TransGen.tail'_iff.mp hcycle
    obtain ⟨-, hleads'⟩ := (edge_singlePreds_iff h).mp hstep
    exact .head' hleads' ((reaches_singlePreds_iff h hreach).mp hback).2

end Walk

section Exact

variable {Ty : Type u} {ε : Type} {body : Body Ty} {order : IterOrder} {bbGraph : BbGraph}
  {isSpecBasicBlock : BasicBlock → Bool} {fuel : Nat}

section

variable (h : RecordsReachable body bbGraph)

include h

/-- What one step of the loop over the blocks does. -/
theorem gatherSpecBasicBlock_eq_ok_iff (hreach : Reaches body.realSuccessors startBlock bb)
    {specBasicBlocks result : HashSet BasicBlock} :
    gatherSpecBasicBlock order bbGraph isSpecBasicBlock fuel specBasicBlocks bb =
        (.ok result : Except (Stop ε) _) ↔
      if isSpecBasicBlock bb = true then
        ∃ trace, unroll (singlePreds order bbGraph) fuel bb = some trace ∧
          HashSet.union (HashSet.insert specBasicBlocks bb)
            (trace.tail.foldl HashSet.insert HashMap.empty) = result
      else specBasicBlocks = result := by
  unfold gatherSpecBasicBlock
  by_cases hspec : isSpecBasicBlock bb = true
  · rw [if_pos hspec, if_pos hspec, blocksDefinitelyLeadingTo,
      blocksDefinitelyLeadingToFrom_eq h hreach]
    simp
  · rw [if_neg hspec, if_neg hspec, pure_eq_ok_iff]

/-- The gathered blocks are those on the walks back from the blocks that were looked at. -/
theorem contains_of_gather {bbs : List BasicBlock}
    (hreach : ∀ bb ∈ bbs, Reaches body.realSuccessors startBlock bb)
    {specBasicBlocks result : HashSet BasicBlock}
    (hok : bbs.foldlM (gatherSpecBasicBlock order bbGraph isSpecBasicBlock fuel) specBasicBlocks =
      (.ok result : Except (Stop ε) _)) :
    (∀ bb ∈ bbs, isSpecBasicBlock bb = true →
        ∃ trace, unroll (singlePreds order bbGraph) fuel bb = some trace) ∧
      ∀ bb, result.contains bb = true ↔ specBasicBlocks.contains bb = true ∨
        ∃ target ∈ bbs, isSpecBasicBlock target = true ∧
          Reaches (singlePreds order bbGraph) target bb := by
  induction bbs generalizing specBasicBlocks with
  | nil =>
    cases hok
    simp
  | cons target bbs ih =>
    rw [List.forall_mem_cons] at hreach
    rw [List.foldlM_cons, bind_eq_ok_iff] at hok
    obtain ⟨middle, hmiddle, hrest⟩ := hok
    obtain ⟨hunroll, hcontains⟩ := ih hreach.2 hrest
    rw [gatherSpecBasicBlock_eq_ok_iff h hreach.1] at hmiddle
    rw [List.forall_mem_cons]
    simp only [List.exists_mem_cons_iff]
    split at hmiddle
    · next hspec =>
        obtain ⟨trace, htrace, rfl⟩ := hmiddle
        refine ⟨⟨fun _ => ⟨trace, htrace⟩, hunroll⟩, fun bb => ?_⟩
        obtain ⟨rest, rfl⟩ := exists_eq_cons_of_unroll htrace
        have hempty : (HashMap.empty : HashSet BasicBlock).contains bb = false := rfl
        rw [hcontains, HashSet.contains_union_iff, HashSet.contains_insert_iff,
          HashSet.contains_foldl_insert_iff, ← mem_unroll_iff htrace, List.mem_cons,
          List.tail_cons, and_iff_right hspec]
        simp [hempty, or_assoc]
    · next hspec =>
        subst hmiddle
        refine ⟨⟨fun htrue => absurd htrue hspec, hunroll⟩, fun bb => ?_⟩
        rw [hcontains]
        simp [hspec]

theorem exists_gather {bbs : List BasicBlock}
    (hreach : ∀ bb ∈ bbs, Reaches body.realSuccessors startBlock bb)
    (hunroll : ∀ bb ∈ bbs, isSpecBasicBlock bb = true →
      ∃ trace, unroll (singlePreds order bbGraph) fuel bb = some trace)
    (specBasicBlocks : HashSet BasicBlock) :
    ∃ result, bbs.foldlM (gatherSpecBasicBlock order bbGraph isSpecBasicBlock fuel)
      specBasicBlocks = (.ok result : Except (Stop ε) _) := by
  induction bbs generalizing specBasicBlocks with
  | nil => exact ⟨specBasicBlocks, rfl⟩
  | cons target bbs ih =>
    rw [List.forall_mem_cons] at hreach hunroll
    have hstep : ∃ middle, gatherSpecBasicBlock order bbGraph isSpecBasicBlock fuel
        specBasicBlocks target = (.ok middle : Except (Stop ε) _) := by
      simp only [gatherSpecBasicBlock_eq_ok_iff h hreach.1]
      by_cases hspec : isSpecBasicBlock target = true
      · obtain ⟨trace, htrace⟩ := hunroll.1 hspec
        exact ⟨_, by rw [if_pos hspec]; exact ⟨trace, htrace, rfl⟩⟩
      · exact ⟨_, by rw [if_neg hspec]⟩
    obtain ⟨middle, hmiddle⟩ := hstep
    rw [List.foldlM_cons, hmiddle]
    exact ih hreach.2 hunroll.2 middle

theorem mem_iter_keys_iff :
    bb ∈ order.iter 0 bbGraph.keys ↔ Reaches body.realSuccessors startBlock bb := by
  rw [IterOrder.mem_iter, ← HashMap.contains_iff_mem_keys, h.contains_iff]

/-- The blocks that are left, if the search ends. -/
theorem mem_nonspec_iff {nonspec : List BasicBlock}
    (hok : getNonspecBasicBlocks order bbGraph isSpecBasicBlock fuel =
      (.ok nonspec : Except (Stop ε) _))
    (hreach : Reaches body.realSuccessors startBlock bb) :
    bb ∉ nonspec ↔
      ∃ target, ReflTransGen (LeadsTo body) bb target ∧ isSpecBasicBlock target = true := by
  obtain ⟨specBasicBlocks, hgather, hnonspec⟩ := exists_of_bind_eq_ok hok
  rw [pure_eq_ok_iff] at hnonspec
  subst hnonspec
  obtain ⟨-, hcontains⟩ := contains_of_gather h (fun bb => (mem_iter_keys_iff h).mp) hgather
  rw [List.mem_filter, ← HashMap.contains_iff_mem_keys, h.contains_iff, and_iff_right hreach,
    Bool.not_eq_true', Bool.not_eq_false, hcontains]
  constructor
  · rintro (hempty | ⟨target, htarget, hspec, hpath⟩)
    · cases hempty
    · exact ⟨target, ((reaches_singlePreds_iff h ((mem_iter_keys_iff h).mp htarget)).mp
        hpath).2, hspec⟩
  · rintro ⟨target, hpath, hspec⟩
    have htarget := reaches_of_leadsTo hreach hpath
    exact .inr ⟨target, (mem_iter_keys_iff h).mpr htarget, hspec,
      (reaches_singlePreds_iff h htarget).mpr ⟨hreach, hpath⟩⟩

end

/-- The dominators are asked of reachable blocks only. -/
def DominatorsKnown (body : Body Ty) : Prop :=
  ∀ bb, body.realSuccessors bb ≠ [] → Reaches body.successors startBlock bb

/-- No reachable block with a specification closure is led back to. -/
def NoSpecCycle (body : Body Ty) (isSpecBasicBlock : BasicBlock → Bool) : Prop :=
  ∀ bb, Reaches body.realSuccessors startBlock bb → isSpecBasicBlock bb = true →
    ¬ TransGen (LeadsTo body) bb bb

theorem assertion_iff (body : Body Ty) :
    (body.indices.all fun bb => body.realSuccessors bb = [] ∨ body.isReachable bb) = true ↔
      DominatorsKnown body := by
  simp only [List.all_eq_true, decide_eq_true_iff, Body.isReachable_iff, DominatorsKnown,
    Body.mem_indices_iff, or_iff_not_imp_left]
  refine ⟨fun h bb hne => h bb ?_ hne, fun h bb _ => h bb⟩
  obtain ⟨target, htarget⟩ := List.exists_mem_of_ne_nil _ hne
  exact Body.lt_of_mem_successors (Body.realSuccessors_subset _ htarget)

/-- What it takes for the search to end. -/
theorem noSpecCycle_of_findsSpecBlocks (h : FindsSpecBlocks body order isSpecBasicBlock) :
    DominatorsKnown body ∧ NoSpecCycle body isSpecBasicBlock := by
  obtain ⟨fuel, nonspec, hok, -⟩ := h
  simp only [buildNonspecBasicBlocks, bind_eq_ok_iff, Stop.assert_eq_ok_iff,
    exists_const] at hok
  obtain ⟨hknown, bbGraph, hbuild, hsearch⟩ := hok
  have h := BuildInv.initial.run hbuild
  refine ⟨(assertion_iff body).mp hknown, fun bb hreach hspec => ?_⟩
  obtain ⟨specBasicBlocks, hgather, -⟩ := exists_of_bind_eq_ok hsearch
  obtain ⟨hunroll, -⟩ := contains_of_gather h (fun bb => (mem_iter_keys_iff h).mp) hgather
  obtain ⟨trace, htrace⟩ := hunroll bb ((mem_iter_keys_iff h).mpr hreach) hspec
  exact (acyclicFrom_singlePreds_iff h hreach).mp (acyclicFrom_of_unroll htrace)

/-- The search finds the blocks exactly if the dominators are known and no cycle leads
back to a block with a specification closure. -/
theorem findsSpecBlocks_iff (body : Body Ty) (order : IterOrder)
    (isSpecBasicBlock : BasicBlock → Bool) :
    FindsSpecBlocks body order isSpecBasicBlock ↔
      DominatorsKnown body ∧ NoSpecCycle body isSpecBasicBlock := by
  constructor
  · exact noSpecCycle_of_findsSpecBlocks
  · rintro ⟨hknown, hcycle⟩
    obtain ⟨bbGraph, hbuild⟩ := BuildInv.initial.exists_buildBbGraph (ε := Empty) le_rfl
    have h := BuildInv.initial.run hbuild
    have hends : ∀ bb ∈ order.iter 0 bbGraph.keys, isSpecBasicBlock bb = true →
        ∃ fuel trace, unroll (singlePreds order bbGraph) fuel bb = some trace := by
      intro bb hmem hspec
      have hreach := (mem_iter_keys_iff h).mp hmem
      refine exists_unroll (Finset.range body.basicBlocks.length) (fun _ _ hstep => ?_)
        ((acyclicFrom_singlePreds_iff h hreach).mpr (hcycle bb hreach hspec))
      exact Finset.mem_range.mpr (lt_of_reaches ((edge_singlePreds_iff h).mp hstep).1)
    obtain ⟨fuel, hunroll⟩ := exists_fuel_unroll hends
    let more := max ([startBlock].length + edgesLeft body HashMap.empty) fuel
    obtain ⟨specBasicBlocks, hgather⟩ := exists_gather (ε := Empty) h
      (fun bb => (mem_iter_keys_iff h).mp) (hunroll more (le_max_right _ _)) HashMap.empty
    have hsearch : ∃ nonspec, getNonspecBasicBlocks order bbGraph isSpecBasicBlock more =
        (.ok nonspec : Except (Stop Empty) _) :=
      ⟨_, (bind_eq_ok_iff _ _ _).mpr ⟨specBasicBlocks, hgather, rfl⟩⟩
    obtain ⟨nonspec, hsearch⟩ := hsearch
    refine ⟨more, nonspec, ?_, fun bb hreach => mem_nonspec_iff h hsearch hreach⟩
    rw [buildNonspecBasicBlocks, (assertion_iff body).mpr hknown]
    change buildBbGraph body more _ _ _ >>= _ = _
    rw [BuildInv.buildBbGraph_mono (le_max_left _ _) hbuild]
    exact hsearch

end Exact

namespace Witness

/-- The second block has a specification closure and jumps to itself. -/
def specLoop : Body Unit where
  basicBlocks := [⟨[], .goto 1⟩, ⟨[], .goto 1⟩]
  localDecls := [()]
  argCount := 0
  startBlock_lt := by decide
  argCount_lt := Nat.one_pos
  target_lt := by decide

theorem leadsTo_specLoop : LeadsTo specLoop 1 1 := fun target => by
  change target ∈ [1] ↔ _
  rw [List.mem_singleton]

theorem specLoop_not_findsSpecBlocks :
    ¬ FindsSpecBlocks specLoop .identity fun bb => bb == 1 := fun h =>
  (noSpecCycle_of_findsSpecBlocks h).2 1
    (.single (show 1 ∈ specLoop.realSuccessors 0 by decide)) rfl (.single leadsTo_specLoop)

end Witness

end Prusti.Mir

/-
The sets of the liveness analysis are exactly the assignments with a path to the point,
where a call assigns its destination for certain on the error edge as well.
-/
import Prusti.Analysis.DefPaths
import Prusti.Analysis.Liveness

namespace Prusti.Analysis

open Prusti.Lib Prusti.Mir

universe u

namespace LivenessAnalysis

section Effects

variable {Ty : Type u} {body : Body Ty} {set : AssignmentSet} {location : Location}
  {assignment : Assignment}

/-- The set after a whole local is assigned, if one is. -/
def assignSet (assigned : Option Local) (location : Location) (set : AssignmentSet) :
    AssignmentSet :=
  match assigned with
  | some root => set.replace root location
  | none => set

theorem mem_assignSet_iff {assigned : Option Local} :
    assignment ∈ assignSet assigned location set ↔
      (assigned = some assignment.target ∧ assignment.location = location) ∨
        (assigned ≠ some assignment.target ∧ assignment ∈ set) := by
  cases assigned with
  | none => simp [assignSet]
  | some root =>
    obtain ⟨target, site⟩ := assignment
    rw [assignSet, AssignmentSet.replace, Finset.mem_insert, Finset.mem_filter, Assignment.mk.injEq]
    by_cases heq : root = target
    · subst heq
      simp
    · simp [heq, Ne.symm heq]

/-- The local that a terminator assigns as a whole. -/
def terminatorAssigned : TerminatorKind Ty → Option Local
  | .call _ _ (some (place, _)) _ => place.asLocal
  | _ => none

variable (body) in
/-- The local that is assigned as a whole at a location. -/
def assignedAt (location : Location) : Option Local :=
  match (body.statements location.block)[location.statementIndex]? with
  | some statement => assignedLocal statement
  | none => (body.terminator? location.block).bind terminatorAssigned

theorem assignedAt_statement (location : Location) {statement : StatementKind Ty}
    (h : (body.statements location.block)[location.statementIndex]? = some statement) :
    assignedAt body location = assignedLocal statement := by
  rw [assignedAt, h]

theorem assignedAt_terminator {bb : BasicBlock} {kind : TerminatorKind Ty}
    (h : body.terminator? bb = some kind) :
    assignedAt body (body.terminatorLoc bb) = terminatorAssigned kind := by
  have hlast : (body.statements bb)[(body.statements bb).length]? = none :=
    List.getElem?_eq_none le_rfl
  simp only [assignedAt, Body.terminatorLoc, hlast, h, Option.bind_some]

theorem statementEffect_eq (statement : StatementKind Ty) :
    statementEffect statement location set = assignSet (assignedLocal statement) location set := by
  cases statement <;> rfl

theorem terminatorEffect_eq (kind : TerminatorKind Ty) :
    terminatorEffect kind location set = assignSet (terminatorAssigned kind) location set := by
  cases kind with
  | call func args destination cleanup => cases destination <;> rfl
  | _ => rfl

/-- If calls assign for certain on both edges, all edges of a terminator agree. -/
theorem assigned_of_mem_defEdges {kind : TerminatorKind Ty} {edge : DefEdge}
    (h : edge ∈ defEdges true kind) :
    edge.assigned = terminatorAssigned kind ∧ (edge.assigned ≠ none → edge.certain = true) := by
  cases kind with
  | call func args destination cleanup =>
    rcases List.mem_append.mp h with h | h
    · obtain ⟨dest, hdest, rfl⟩ := List.mem_map.mp h
      rw [Option.mem_toList] at hdest
      subst hdest
      exact ⟨rfl, fun _ => rfl⟩
    · obtain ⟨bb, -, rfl⟩ := List.mem_map.mp h
      refine ⟨?_, fun _ => rfl⟩
      cases destination <;> rfl
  | _ =>
    obtain ⟨bb, -, rfl⟩ := List.mem_map.mp h
    exact ⟨rfl, fun hne => absurd rfl hne⟩

/-- A location of the body, or of one of its terminators. -/
def IsLocation (body : Body Ty) (location : Location) : Prop :=
  location.block < body.basicBlocks.length ∧
    location.statementIndex ≤ (body.statements location.block).length

/-- There is a path for an assignment to a point. -/
def Reaches (body : Body Ty) (assignment : Assignment) (point : Point) : Prop :=
  DefReaches body true assignment.target (.assignment assignment.location) point

/-- There are paths for an assignment to the next location, or to all edges. -/
def ReachesAfter (body : Body Ty) (location : Location) (assignment : Assignment) : Prop :=
  (location.statementIndex < (body.statements location.block).length →
    Reaches body assignment (.before ⟨location.block, location.statementIndex + 1⟩)) ∧
  (location.statementIndex = (body.statements location.block).length →
    ∀ next ∈ body.successors location.block, Reaches body assignment (.onEdge location.block next))

theorem reachesAfter_assignSet (hset : ∀ other ∈ set, Reaches body other (.before location))
    (h : assignment ∈ assignSet (assignedAt body location) location set) :
    ReachesAfter body location assignment := by
  rw [mem_assignSet_iff] at h
  obtain ⟨bb, idx⟩ := location
  refine ⟨fun hlt => ?_, fun heq next hnext => ?_⟩
  · have hstatement := List.getElem?_eq_getElem hlt
    rw [assignedAt_statement _ hstatement] at h
    rcases h with ⟨hassigned, hsite⟩ | ⟨hkept, hmem⟩
    · rw [Reaches, hsite]
      exact .assignment hstatement hassigned
    · exact .statement (hset assignment hmem) hstatement hkept
  · obtain ⟨kind, hkind⟩ := Body.terminator?_eq_some (Body.lt_of_mem_successors hnext)
    have hlast : (⟨bb, idx⟩ : Location) = body.terminatorLoc bb := congrArg (Location.mk bb) heq
    rw [Body.successors_eq hkind] at hnext
    obtain ⟨edge, hedge, rfl⟩ := exists_defEdge true hnext
    obtain ⟨hassigned, -⟩ := assigned_of_mem_defEdges hedge
    rw [hlast] at h hset
    rw [assignedAt_terminator hkind, ← hassigned] at h
    rcases h with ⟨hassigned, hsite⟩ | ⟨hkept, hmem⟩
    · rw [Reaches, hsite]
      exact .destination hkind hedge hassigned
    · exact .terminator (hset assignment hmem) hkind hedge fun _ => hkept

end Effects

section Updates

variable {Ty : Type u} {body : Body Ty} {analysis analysis' : LivenessAnalysis}
  {location : Location} {bb : BasicBlock} {set : AssignmentSet}

/-- What storing the set after a location does. -/
structure LocationUpdate (body : Body Ty) (location : Location) (set : AssignmentSet)
    (analysis analysis' : LivenessAnalysis) : Prop where
  beforeBlock : analysis'.result.beforeBlock = analysis.result.beforeBlock
  afterStatement : ∀ location', analysis'.result.afterStatement.get? location' =
    if location = location' then some set
    else analysis.result.afterStatement.get? location'
  queued : ∀ item ∈ analysis.queue, item ∈ analysis'.queue
  next : analysis.result.afterStatement.get? location = some set ∨
    (location.statementIndex < (body.statements location.block).length →
      itemAt body ⟨location.block, location.statementIndex + 1⟩ ∈ analysis'.queue) ∧
    (location.statementIndex = (body.statements location.block).length →
      ∀ next ∈ body.successors location.block, .mergeEffects next ∈ analysis'.queue)

theorem mem_foldl_cons_iff {nexts : List BasicBlock} {queue : List WorkItem} {item : WorkItem} :
    item ∈ nexts.foldl (fun queue next => .mergeEffects next :: queue) queue ↔
      item ∈ queue ∨ ∃ next ∈ nexts, item = .mergeEffects next := by
  induction nexts generalizing queue with
  | nil => simp
  | cons next nexts ih =>
    rw [List.foldl_cons, ih, List.mem_cons, or_comm (a := item = .mergeEffects next), or_assoc]
    simp

theorem afterStatement_insert (result : AnalysisResult AssignmentSet) (location' : Location) :
    (result.afterStatement.insert location set).get? location' =
      if location = location' then some set else result.afterStatement.get? location' := by
  rw [HashMap.get?_insert]
  simp only [beq_iff_eq]

theorem locationUpdate_of_some
    (h : updateSetAfterStatement body analysis location set = some analysis') :
    LocationUpdate body location set analysis analysis' := by
  rw [updateSetAfterStatement, Option.bind_eq_bind, Option.bind_eq_some_iff] at h
  obtain ⟨oldSet, hold, h⟩ := h
  split at h
  · next heq =>
      obtain rfl := Option.some_inj.mp h
      refine ⟨rfl, fun location' => ?_, fun _ hitem => hitem, .inl (heq ▸ hold)⟩
      split
      · next heq' => rw [← heq', hold, heq]
      · rfl
  · dsimp only at h
    split at h
    · next hindex =>
        obtain rfl := Option.some_inj.mp h
        refine ⟨rfl, afterStatement_insert _, fun _ => List.mem_cons_of_mem _, .inr ⟨?_, ?_⟩⟩
        · intro _
          rw [itemAt, if_pos hindex]
          exact List.mem_cons_self
        · omega
    · next hindex =>
        split at h
        · next hlast =>
            obtain rfl := Option.some_inj.mp h
            refine ⟨rfl, afterStatement_insert _, fun _ hitem =>
              mem_foldl_cons_iff.mpr (.inl hitem), .inr ⟨by omega, fun _ next hnext => ?_⟩⟩
            exact mem_foldl_cons_iff.mpr (.inr ⟨next, hnext, rfl⟩)
        · next hlast =>
            obtain rfl := Option.some_inj.mp h
            refine ⟨rfl, afterStatement_insert _, fun _ => List.mem_cons_of_mem _,
              .inr ⟨fun _ => ?_, fun heq => absurd heq hlast⟩⟩
            rw [itemAt, if_neg hindex]
            exact List.mem_cons_self

/-- What storing the set before a block does. -/
structure BlockUpdate (body : Body Ty) (bb : BasicBlock) (set : AssignmentSet)
    (analysis analysis' : LivenessAnalysis) : Prop where
  afterStatement : analysis'.result.afterStatement = analysis.result.afterStatement
  beforeBlock : ∀ bb', analysis'.result.beforeBlock.get? bb' =
    if bb = bb' then some set else analysis.result.beforeBlock.get? bb'
  queued : ∀ item ∈ analysis.queue, item ∈ analysis'.queue
  next : analysis.result.beforeBlock.get? bb = some set ∨ itemAt body ⟨bb, 0⟩ ∈ analysis'.queue

theorem beforeBlock_insert (result : AnalysisResult AssignmentSet) (bb' : BasicBlock) :
    (result.beforeBlock.insert bb set).get? bb' =
      if bb = bb' then some set else result.beforeBlock.get? bb' := by
  rw [HashMap.get?_insert]
  simp only [beq_iff_eq]

theorem mem_foldl_union_iff {preds : List BasicBlock}
    {setOf : BasicBlock → Option AssignmentSet} {sets : List AssignmentSet}
    (h : preds.mapM setOf = some sets) {start : AssignmentSet} {assignment : Assignment} :
    assignment ∈ sets.foldl (· ∪ ·) start ↔ assignment ∈ start ∨
      ∃ pred ∈ preds, ∃ set, setOf pred = some set ∧ assignment ∈ set := by
  induction preds generalizing sets start with
  | nil =>
    rw [List.mapM_nil] at h
    obtain rfl := Option.some_inj.mp h
    simp
  | cons pred preds ih =>
    simp only [List.mapM_cons, Option.bind_eq_bind, Option.bind_eq_some_iff] at h
    obtain ⟨first, hfirst, rest, hrest, h⟩ := h
    obtain rfl := Option.some_inj.mp h
    rw [List.foldl_cons, ih hrest, Finset.mem_union, or_assoc]
    simp [hfirst]

/-- Merging does nothing without predecessors.  Otherwise it stores the union of their
sets. -/
theorem blockUpdate_of_some (h : mergeEffects body analysis bb = some analysis') :
    body.predecessors bb = [] ∧ analysis' = analysis ∨
    ∃ set, BlockUpdate body bb set analysis analysis' ∧
      ∀ assignment, assignment ∈ set ↔ ∃ pred ∈ body.predecessors bb, ∃ other,
        getSetAfterBlock body analysis.result pred = some other ∧ assignment ∈ other := by
  rw [mergeEffects] at h
  split at h
  · next hpreds => exact .inl ⟨hpreds, (Option.some_inj.mp h).symm⟩
  · right
    simp only [Option.bind_eq_bind, Option.bind_eq_some_iff] at h
    obtain ⟨sets, hsets, oldSet, hold, h⟩ := h
    refine ⟨sets.foldl (· ∪ ·) ∅, ?_, fun assignment => ?_⟩
    · split at h
      · next heq =>
          obtain rfl := Option.some_inj.mp h
          refine ⟨rfl, fun bb' => ?_, fun _ hitem => hitem, .inl (heq ▸ hold)⟩
          split
          · next heq' => rw [← heq', hold, heq]
          · rfl
      · split at h
        · next hempty =>
            obtain rfl := Option.some_inj.mp h
            refine ⟨rfl, beforeBlock_insert _, fun _ => List.mem_cons_of_mem _, .inr ?_⟩
            rw [itemAt, if_pos hempty.symm]
            exact List.mem_cons_self
        · next hnonempty =>
            obtain rfl := Option.some_inj.mp h
            refine ⟨rfl, beforeBlock_insert _, fun _ => List.mem_cons_of_mem _, .inr ?_⟩
            rw [itemAt, if_neg (Ne.symm hnonempty)]
            exact List.mem_cons_self
    · rw [mem_foldl_union_iff hsets]
      simp

end Updates

section Invariant

variable {Ty : Type u} {body : Body Ty} {result : AnalysisResult AssignmentSet}
  {queue : List WorkItem} {analysis analysis' : LivenessAnalysis}
  {location : Location} {bb : BasicBlock} {set : AssignmentSet}

/-- The set after a location is what the location makes of the set before it. -/
def LocationSolved (body : Body Ty) (result : AnalysisResult AssignmentSet)
    (location : Location) : Prop :=
  ∀ set, getSetBeforeStatement result location = some set →
    result.afterStatement.get? location = some (assignSet (assignedAt body location) location set)

/-- The set before a block holds the sets of its predecessors. -/
def BlockSolved (body : Body Ty) (result : AnalysisResult AssignmentSet) (bb : BasicBlock) : Prop :=
  ∀ pred ∈ body.predecessors bb, ∀ set, getSetAfterBlock body result pred = some set →
    ∃ merged, result.beforeBlock.get? bb = some merged ∧ set ⊆ merged

/-- The sets hold assignments with a path only, and what is not queued is solved. -/
structure Invariant (body : Body Ty) (result : AnalysisResult AssignmentSet)
    (queue : List WorkItem) : Prop where
  exists_before : ∀ location, IsLocation body location →
    ∃ set, getSetBeforeStatement result location = some set
  reachesBefore : ∀ bb set, result.beforeBlock.get? bb = some set →
    ∀ assignment ∈ set, Reaches body assignment (.before ⟨bb, 0⟩)
  reachesAfter : ∀ location set, result.afterStatement.get? location = some set →
    ∀ assignment ∈ set, ReachesAfter body location assignment
  locationSolved : ∀ location, IsLocation body location →
    itemAt body location ∈ queue ∨ LocationSolved body result location
  blockSolved : ∀ bb < body.basicBlocks.length,
    .mergeEffects bb ∈ queue ∨ BlockSolved body result bb

theorem itemAt_ne_mergeEffects : itemAt body location ≠ .mergeEffects bb := by
  rw [itemAt]
  split <;> exact WorkItem.noConfusion

theorem itemAt_injective {location' : Location}
    (h : itemAt body location = itemAt body location') : location = location' := by
  obtain ⟨bb, idx⟩ := location
  obtain ⟨bb', idx'⟩ := location'
  simp only [itemAt] at h
  split at h
  · next hlast =>
      split at h
      · next hlast' =>
          cases h
          rw [hlast, hlast']
      · cases h
  · split at h
    · cases h
    · exact WorkItem.applyStatementEffects.inj h

/-- The set before a location only holds assignments with a path to it. -/
theorem Invariant.reaches (hinv : Invariant body result queue)
    (hindex : location.statementIndex ≤ (body.statements location.block).length)
    (hset : getSetBeforeStatement result location = some set) :
    ∀ assignment ∈ set, Reaches body assignment (.before location) := by
  obtain ⟨bb, idx⟩ := location
  intro assignment hmem
  cases idx with
  | zero => exact hinv.reachesBefore bb set hset assignment hmem
  | succ idx => exact (hinv.reachesAfter ⟨bb, idx⟩ set hset assignment hmem).1 hindex

theorem LocationSolved.congr {result' : AnalysisResult AssignmentSet}
    (h : LocationSolved body result location)
    (hbefore : getSetBeforeStatement result' location = getSetBeforeStatement result location)
    (hafter : result'.afterStatement.get? location = result.afterStatement.get? location) :
    LocationSolved body result' location := by
  intro set hset
  rw [hafter]
  exact h set (hbefore ▸ hset)

theorem BlockSolved.congr {result' : AnalysisResult AssignmentSet} (h : BlockSolved body result bb)
    (hbefore : result'.beforeBlock.get? bb = result.beforeBlock.get? bb)
    (hafter : ∀ pred ∈ body.predecessors bb,
      getSetAfterBlock body result' pred = getSetAfterBlock body result pred) :
    BlockSolved body result' bb := by
  intro pred hpred set hset
  rw [hbefore]
  exact h pred hpred set (hafter pred hpred ▸ hset)

namespace LocationUpdate

variable {location' : Location}

section

variable (h : LocationUpdate body location set analysis analysis')

include h

theorem afterStatement_of_unchanged
    (hsame : analysis.result.afterStatement.get? location = some set) (location' : Location) :
    analysis'.result.afterStatement.get? location' =
      analysis.result.afterStatement.get? location' := by
  rw [h.afterStatement]
  split
  · next heq => rw [← heq, hsame]
  · rfl

theorem afterStatement_of_ne (hne : location ≠ location') :
    analysis'.result.afterStatement.get? location' =
      analysis.result.afterStatement.get? location' := by
  rw [h.afterStatement, if_neg hne]

/-- Only the set before the next location depends on the set after a location. -/
theorem getSetBeforeStatement_of_ne
    (hne : location' ≠ ⟨location.block, location.statementIndex + 1⟩) :
    getSetBeforeStatement analysis'.result location' =
      getSetBeforeStatement analysis.result location' := by
  obtain ⟨bb, idx⟩ := location'
  cases idx with
  | zero => exact congrArg (fun map => map.get? bb) h.beforeBlock
  | succ idx =>
    refine h.afterStatement_of_ne fun heq => hne ?_
    rw [heq]
    rfl

theorem getSetBeforeStatement_of_unchanged
    (hsame : analysis.result.afterStatement.get? location = some set) (location' : Location) :
    getSetBeforeStatement analysis'.result location' =
      getSetBeforeStatement analysis.result location' := by
  rw [getSetBeforeStatement, getSetBeforeStatement, h.beforeBlock,
    h.afterStatement_of_unchanged hsame]

/-- The next location is queued, or not concerned. -/
theorem locationSolved (hne : location ≠ location') (hloc : IsLocation body location')
    (hsolved : LocationSolved body analysis.result location') :
    itemAt body location' ∈ analysis'.queue ∨ LocationSolved body analysis'.result location' := by
  rcases h.next with hsame | ⟨hnext, -⟩
  · exact .inr (hsolved.congr (h.getSetBeforeStatement_of_unchanged hsame location')
      (h.afterStatement_of_unchanged hsame location'))
  · by_cases heq : location' = ⟨location.block, location.statementIndex + 1⟩
    · subst heq
      exact .inl (hnext hloc.2)
    · exact .inr (hsolved.congr (h.getSetBeforeStatement_of_ne heq) (h.afterStatement_of_ne hne))

/-- The successors of a terminator are queued, the other blocks not concerned. -/
theorem blockSolved (hsolved : BlockSolved body analysis.result bb) :
    .mergeEffects bb ∈ analysis'.queue ∨ BlockSolved body analysis'.result bb := by
  have hbefore : analysis'.result.beforeBlock.get? bb = analysis.result.beforeBlock.get? bb :=
    congrArg (fun map => map.get? bb) h.beforeBlock
  rcases h.next with hsame | ⟨-, hnext⟩
  · exact .inr (hsolved.congr hbefore fun pred _ =>
      h.afterStatement_of_unchanged hsame (body.terminatorLoc pred))
  · by_cases hpred : location = body.terminatorLoc location.block ∧
        bb ∈ body.successors location.block
    · exact .inl (hnext (congrArg Location.statementIndex hpred.1) bb hpred.2)
    · refine .inr (hsolved.congr hbefore fun pred hmem => h.afterStatement_of_ne ?_)
      rintro rfl
      exact hpred ⟨rfl, Body.mem_predecessors_iff.mp hmem⟩

end

end LocationUpdate

/-- The first location of the block is queued, or not concerned. -/
theorem BlockUpdate.locationSolved {location' : Location}
    (h : BlockUpdate body bb set analysis analysis')
    (hsolved : LocationSolved body analysis.result location') :
    itemAt body location' ∈ analysis'.queue ∨ LocationSolved body analysis'.result location' := by
  have hafter : ∀ location, analysis'.result.afterStatement.get? location =
      analysis.result.afterStatement.get? location := fun location =>
    congrArg (fun map => map.get? location) h.afterStatement
  obtain ⟨bb', idx⟩ := location'
  cases idx with
  | zero =>
    by_cases hsame : bb = bb'
    · subst hsame
      rcases h.next with hunchanged | hnext
      · refine .inr (hsolved.congr ?_ (hafter _))
        exact ((h.beforeBlock bb).trans (if_pos rfl)).trans hunchanged.symm
      · exact .inl hnext
    · exact .inr (hsolved.congr ((h.beforeBlock bb').trans (if_neg hsame)) (hafter _))
  | succ idx => exact .inr (hsolved.congr (hafter _) (hafter _))

/-- The effect of a location, when it is taken from the queue. -/
theorem Invariant.location_step (hinv : Invariant body result (itemAt body location :: queue))
    (hindex : location.statementIndex ≤ (body.statements location.block).length)
    (hset : getSetBeforeStatement result location = some set)
    (hupdate : LocationUpdate body location
      (assignSet (assignedAt body location) location set) ⟨result, queue⟩ analysis') :
    Invariant body analysis'.result analysis'.queue where
  exists_before location' hloc' := by
    by_cases hnext : location' = ⟨location.block, location.statementIndex + 1⟩
    · subst hnext
      exact ⟨_, (hupdate.afterStatement location).trans (if_pos rfl)⟩
    · rw [hupdate.getSetBeforeStatement_of_ne hnext]
      exact hinv.exists_before location' hloc'
  reachesBefore bb set' hset' := by
    rw [hupdate.beforeBlock] at hset'
    exact hinv.reachesBefore bb set' hset'
  reachesAfter location' set' hset' := by
    rw [hupdate.afterStatement] at hset'
    split at hset'
    · next heq =>
        obtain rfl := Option.some_inj.mp hset'
        subst heq
        exact fun assignment => reachesAfter_assignSet (hinv.reaches hindex hset)
    · exact hinv.reachesAfter location' set' hset'
  locationSolved location' hloc' := by
    by_cases hsame : location = location'
    · subst hsame
      right
      intro set' hset'
      rw [hupdate.getSetBeforeStatement_of_ne fun heq =>
        Nat.succ_ne_self _ (congrArg Location.statementIndex heq).symm, hset] at hset'
      obtain rfl := Option.some_inj.mp hset'
      rw [hupdate.afterStatement, if_pos rfl]
    · rcases hinv.locationSolved location' hloc' with hitem | hsolved
      · rcases List.mem_cons.mp hitem with heq | hitem
        · exact absurd (itemAt_injective heq.symm) hsame
        · exact .inl (hupdate.queued _ hitem)
      · exact hupdate.locationSolved hsame hloc' hsolved
  blockSolved bb hbb := by
    rcases hinv.blockSolved bb hbb with hitem | hsolved
    · rcases List.mem_cons.mp hitem with heq | hitem
      · exact absurd heq.symm itemAt_ne_mergeEffects
      · exact .inl (hupdate.queued _ hitem)
    · exact hupdate.blockSolved hsolved

/-- The effect of a merge, when it is taken from the queue. -/
theorem Invariant.block_step (hinv : Invariant body result (.mergeEffects bb :: queue))
    (hupdate : BlockUpdate body bb set ⟨result, queue⟩ analysis')
    (hset : ∀ assignment, assignment ∈ set ↔ ∃ pred ∈ body.predecessors bb, ∃ other,
      getSetAfterBlock body result pred = some other ∧ assignment ∈ other) :
    Invariant body analysis'.result analysis'.queue where
  exists_before location' hloc' := by
    obtain ⟨bb', idx⟩ := location'
    cases idx with
    | zero =>
      by_cases hsame : bb = bb'
      · exact ⟨set, (hupdate.beforeBlock bb').trans (if_pos hsame)⟩
      · obtain ⟨set', hset'⟩ := hinv.exists_before _ hloc'
        exact ⟨set', ((hupdate.beforeBlock bb').trans (if_neg hsame)).trans hset'⟩
    | succ idx =>
      obtain ⟨set', hset'⟩ := hinv.exists_before _ hloc'
      exact ⟨set', (congrArg (fun map => map.get? ⟨bb', idx⟩) hupdate.afterStatement).trans hset'⟩
  reachesBefore bb' set' hset' := by
    rw [hupdate.beforeBlock] at hset'
    split at hset'
    · next heq =>
        obtain rfl := Option.some_inj.mp hset'
        subst heq
        intro assignment hmem
        obtain ⟨pred, hpred, other, hother, hmem⟩ := (hset assignment).mp hmem
        exact .edge ((hinv.reachesAfter _ other hother assignment hmem).2 rfl bb
          (Body.mem_predecessors_iff.mp hpred))
    · exact hinv.reachesBefore bb' set' hset'
  reachesAfter location' set' hset' := by
    rw [hupdate.afterStatement] at hset'
    exact hinv.reachesAfter location' set' hset'
  locationSolved location' hloc' := by
    rcases hinv.locationSolved location' hloc' with hitem | hsolved
    · rcases List.mem_cons.mp hitem with heq | hitem
      · exact absurd heq itemAt_ne_mergeEffects
      · exact .inl (hupdate.queued _ hitem)
    · exact hupdate.locationSolved hsolved
  blockSolved bb' hbb' := by
    have hafter : ∀ pred, getSetAfterBlock body analysis'.result pred =
        getSetAfterBlock body result pred := fun pred =>
      congrArg (fun map => map.get? (body.terminatorLoc pred)) hupdate.afterStatement
    by_cases hsame : bb = bb'
    · subst hsame
      refine .inr fun pred hpred other hother => ⟨set, ?_, fun assignment hmem => ?_⟩
      · rw [hupdate.beforeBlock, if_pos rfl]
      · exact (hset assignment).mpr ⟨pred, hpred, other, (hafter pred).symm.trans hother, hmem⟩
    · rcases hinv.blockSolved bb' hbb' with hitem | hsolved
      · rcases List.mem_cons.mp hitem with heq | hitem
        · exact absurd (WorkItem.mergeEffects.inj heq).symm hsame
        · exact .inl (hupdate.queued _ hitem)
      · exact .inr (hsolved.congr ((hupdate.beforeBlock bb').trans (if_neg hsame))
          fun pred _ => hafter pred)

theorem Invariant.applyItem {item : WorkItem} (hinv : Invariant body result (item :: queue))
    (h : applyItem body ⟨result, queue⟩ item = some analysis') :
    Invariant body analysis'.result analysis'.queue := by
  cases item with
  | applyStatementEffects location =>
    change applyStatementEffects body ⟨result, queue⟩ location = some analysis' at h
    rw [applyStatementEffects] at h
    cases hstatement : (body.statements location.block)[location.statementIndex]? with
    | none =>
      rw [hstatement] at h
      cases h
    | some statement =>
      simp only [hstatement, Option.bind_eq_bind, Option.bind_eq_some_iff, statementEffect_eq] at h
      obtain ⟨set, hset, h⟩ := h
      have hlt := (List.getElem?_eq_some_iff.mp hstatement).1
      have hitem : itemAt body location = .applyStatementEffects location := if_neg hlt.ne
      rw [← hitem] at hinv
      rw [← assignedAt_statement _ hstatement] at h
      exact hinv.location_step hlt.le hset (locationUpdate_of_some h)
  | applyTerminatorEffects bb =>
    change applyTerminatorEffects body ⟨result, queue⟩ bb = some analysis' at h
    rw [applyTerminatorEffects] at h
    cases hkind : body.terminator? bb with
    | none =>
      rw [hkind] at h
      cases h
    | some kind =>
      simp only [hkind, Option.bind_eq_bind, Option.bind_eq_some_iff, terminatorEffect_eq] at h
      obtain ⟨set, hset, h⟩ := h
      have hitem : itemAt body (body.terminatorLoc bb) = .applyTerminatorEffects bb := if_pos rfl
      rw [← hitem] at hinv
      rw [← assignedAt_terminator hkind] at h
      exact hinv.location_step le_rfl hset (locationUpdate_of_some h)
  | mergeEffects bb =>
    rcases blockUpdate_of_some h with ⟨hpreds, rfl⟩ | ⟨set, hupdate, hset⟩
    · refine { hinv with locationSolved := fun location' hloc' => ?_
                         blockSolved := fun bb' hbb' => ?_ }
      · exact (hinv.locationSolved location' hloc').imp_left fun hitem =>
          (List.mem_cons.mp hitem).resolve_left itemAt_ne_mergeEffects
      · by_cases hsame : bb' = bb
        · subst hsame
          refine .inr fun pred hpred => ?_
          rw [hpreds] at hpred
          cases hpred
        · exact (hinv.blockSolved bb' hbb').imp_left fun hitem =>
            (List.mem_cons.mp hitem).resolve_left fun heq =>
              hsame (WorkItem.mergeEffects.inj heq)
    · exact hinv.block_step hupdate hset

theorem Invariant.run {rounds : Nat} (hinv : Invariant body result queue)
    (h : run body rounds ⟨result, queue⟩ = some analysis') :
    Invariant body analysis'.result [] := by
  induction rounds generalizing result queue with
  | zero =>
    rw [LivenessAnalysis.run, Option.ite_none_right_eq_some] at h
    obtain ⟨rfl, h⟩ := h
    obtain rfl := Option.some_inj.mp h
    exact hinv
  | succ rounds ih =>
    cases queue with
    | nil =>
      obtain rfl := Option.some_inj.mp h
      exact hinv
    | cons item queue =>
      obtain ⟨next, hnext, h⟩ := Option.bind_eq_some_iff.mp h
      exact ih (hinv.applyItem hnext) h

theorem mem_locations_iff :
    location ∈ body.indices.flatMap (locations body) ↔ IsLocation body location := by
  rw [List.mem_flatMap]
  constructor
  · rintro ⟨bb, hbb, hlocation⟩
    obtain ⟨idx, hidx, rfl⟩ := List.mem_map.mp hlocation
    exact ⟨Body.mem_indices_iff.mp hbb, Nat.lt_succ_iff.mp (List.mem_range.mp hidx)⟩
  · rintro ⟨hbb, hidx⟩
    exact ⟨location.block, Body.mem_indices_iff.mpr hbb, List.mem_map.mpr ⟨location.statementIndex,
        List.mem_range.mpr (Nat.lt_succ_of_le hidx), rfl⟩⟩

theorem get?_beforeBlock_initializeSets :
    (initializeSets body).beforeBlock.get? bb =
      if bb < body.basicBlocks.length then some ∅ else none := by
  rw [initializeSets, HashMap.get?_ofList_const]
  simp only [List.any_beq', List.contains_iff_mem, Body.mem_indices_iff]

theorem get?_afterStatement_initializeSets [Decidable (IsLocation body location)] :
    (initializeSets body).afterStatement.get? location =
      if IsLocation body location then some ∅ else none := by
  rw [initializeSets, HashMap.get?_ofList_const]
  simp only [List.any_beq', List.contains_iff_mem, mem_locations_iff]

theorem invariant_initial : Invariant body (initializeSets body) (propagateWorkQueue body) where
  exists_before location hloc := by
    classical
    obtain ⟨bb, idx⟩ := location
    cases idx with
    | zero => exact ⟨∅, get?_beforeBlock_initializeSets.trans (if_pos hloc.1)⟩
    | succ idx =>
      exact ⟨∅, get?_afterStatement_initializeSets.trans
        (if_pos ⟨hloc.1, Nat.le_of_succ_le hloc.2⟩)⟩
  reachesBefore bb set hset assignment hmem := by
    rw [get?_beforeBlock_initializeSets, Option.ite_none_right_eq_some] at hset
    obtain rfl := Option.some_inj.mp hset.2
    exact absurd hmem (Finset.notMem_empty _)
  reachesAfter location set hset assignment hmem := by
    classical
    rw [get?_afterStatement_initializeSets, Option.ite_none_right_eq_some] at hset
    obtain rfl := Option.some_inj.mp hset.2
    exact absurd hmem (Finset.notMem_empty _)
  locationSolved location hloc := by
    refine .inl (List.mem_flatMap.mpr ⟨location.block, Body.mem_indices_iff.mpr hloc.1,
      List.mem_cons_of_mem _ (List.mem_map_of_mem ?_)⟩)
    exact List.mem_map.mpr ⟨location.statementIndex,
      List.mem_range.mpr (Nat.lt_succ_of_le hloc.2), rfl⟩
  blockSolved bb hbb :=
    .inl (List.mem_flatMap.mpr ⟨bb, Body.mem_indices_iff.mpr hbb, List.mem_cons_self⟩)

end Invariant

section Exactness

variable {Ty : Type u} {body : Body Ty} {result : AnalysisResult AssignmentSet}
  {root : Local} {site : Location} {point : Point}

/-- That an assignment is in the recorded set, if there is one. -/
def Recorded (body : Body Ty) (result : AnalysisResult AssignmentSet)
    (assignment : Assignment) : Point → Prop
  | .before location => ∀ set, getSetBeforeStatement result location = some set → assignment ∈ set
  | .onEdge source _ => ∀ set, getSetAfterBlock body result source = some set → assignment ∈ set

/-- What a solved location leaves. -/
theorem Invariant.mem_after (hinv : Invariant body result []) (location : Location)
    (hloc : IsLocation body location) {assignment : Assignment}
    (hmem : (assignedAt body location = some assignment.target ∧ assignment.location = location) ∨
      (assignedAt body location ≠ some assignment.target ∧
        Recorded body result assignment (.before location))) {set : AssignmentSet}
    (hset : result.afterStatement.get? location = some set) : assignment ∈ set := by
  obtain ⟨before, hbefore⟩ := hinv.exists_before location hloc
  have hsolved := (hinv.locationSolved location hloc).resolve_left List.not_mem_nil
  obtain rfl := Option.some_inj.mp ((hsolved before hbefore).symm.trans hset)
  exact mem_assignSet_iff.mpr (hmem.imp_right fun hkept => ⟨hkept.1, hkept.2 before hbefore⟩)

theorem isLocation_of_statement {bb : BasicBlock} {idx : Nat} {statement : StatementKind Ty}
    (h : (body.statements bb)[idx]? = some statement) : IsLocation body ⟨bb, idx⟩ :=
  ⟨Body.lt_of_getElem?_statements h, (List.getElem?_eq_some_iff.mp h).1.le⟩

theorem isLocation_terminatorLoc {bb : BasicBlock} {kind : TerminatorKind Ty}
    {edge : DefEdge} (hkind : body.terminator? bb = some kind)
    (hedge : edge ∈ defEdges true kind) : IsLocation body (body.terminatorLoc bb) := by
  have htarget : edge.target ∈ body.successors bb := by
    rw [Body.successors_eq hkind]
    exact target_mem_successors hedge
  exact ⟨Body.lt_of_mem_successors htarget, le_rfl⟩

/-- An assignment with a path is recorded when the queue is empty. -/
theorem Invariant.recorded (hinv : Invariant body result []) {assignment : Assignment}
    (h : Reaches body assignment point) : Recorded body result assignment point := by
  obtain ⟨target, site⟩ := assignment
  change DefReaches body true target (.assignment site) point at h
  generalize hsite : DefLocation.assignment site = defSite at h
  induction h with
  | parameter harg => cases hsite
  | @assignment bb idx statement hstatement hassigned =>
    obtain rfl := DefLocation.assignment.inj hsite
    refine fun _ => hinv.mem_after ⟨bb, idx⟩ (isLocation_of_statement hstatement) (.inl ⟨?_, rfl⟩)
    exact (assignedAt_statement _ hstatement).trans hassigned
  | @destination bb kind edge hkind hedge hassigned =>
    obtain rfl := DefLocation.assignment.inj hsite
    refine fun _ => hinv.mem_after (body.terminatorLoc bb)
      (isLocation_terminatorLoc hkind hedge) (.inl ⟨?_, rfl⟩)
    rw [assignedAt_terminator hkind, ← (assigned_of_mem_defEdges hedge).1, hassigned]
  | @statement defSite bb idx statement _ hstatement hkept ih =>
    refine fun _ => hinv.mem_after ⟨bb, idx⟩ (isLocation_of_statement hstatement)
      (.inr ⟨?_, ih hsite⟩)
    rwa [assignedAt_statement ⟨bb, idx⟩ hstatement]
  | @terminator defSite bb kind edge _ hkind hedge hkept ih =>
    refine fun _ => hinv.mem_after (body.terminatorLoc bb)
      (isLocation_terminatorLoc hkind hedge) (.inr ⟨?_, ih hsite⟩)
    obtain ⟨hassigned, hcertain⟩ := assigned_of_mem_defEdges hedge
    rw [assignedAt_terminator hkind, ← hassigned]
    intro heq
    exact hkept (hcertain (heq ▸ Option.some_ne_none _)) heq
  | @edge defSite source target h ih =>
    intro set hset
    have hsuccessor := h.mem_successors
    have hsolved := (hinv.blockSolved target
      (Body.target_lt_of_mem_successors hsuccessor)).resolve_left List.not_mem_nil
    have hloc : IsLocation body (body.terminatorLoc source) :=
      ⟨Body.lt_of_mem_successors hsuccessor, le_rfl⟩
    obtain ⟨before, hbefore⟩ := hinv.exists_before _ hloc
    have hafter := (hinv.locationSolved _ hloc).resolve_left List.not_mem_nil before hbefore
    obtain ⟨merged, hmerged, hsubset⟩ :=
      hsolved source (Body.mem_predecessors_iff.mpr hsuccessor) _ hafter
    obtain rfl := Option.some_inj.mp (hmerged.symm.trans hset)
    exact hsubset (ih hsite _ hafter)

/-- The sets before all locations are exact. -/
theorem computeLiveness_exact (h : computeLiveness body = some result) {location : Location}
    (hloc : IsLocation body location) :
    ∃ set, getSetBeforeStatement result location = some set ∧
      ∀ assignment, assignment ∈ set ↔ Reaches body assignment (.before location) := by
  obtain ⟨analysis, hrun, rfl⟩ := Option.map_eq_some_iff.mp h
  have hinv := invariant_initial.run hrun
  obtain ⟨set, hset⟩ := hinv.exists_before location hloc
  exact ⟨set, hset, fun assignment =>
    ⟨hinv.reaches hloc.2 hset assignment, fun hpath => hinv.recorded hpath set hset⟩⟩

end Exactness

end LivenessAnalysis

end Prusti.Analysis

/-
The reborrowing DAG of an expiring borrow: the guard of a node is the conjunction of the
guards of all nodes that reborrow from it.  `none` stands for a failed assertion, a key
that is missing or an index out of bounds.
-/
import Prusti.Lib.Bfs
import Prusti.Lib.Lists
import Prusti.Vir.Eval

namespace Prusti.Vir

variable {node : Node} {index : Nat}

namespace Model

variable (M : Model)

/-- An expression evaluates to true. -/
def Holds (expr : Expr) (state : M.State) (env : M.Env) : Prop :=
  M.asBool (M.eval expr state env) = some true

variable {M} {state : M.State} {env : M.Env}

theorem holds_mkAnd {left right : Expr} :
    M.Holds (Expr.mkAnd left right) state env ↔
      M.Holds left state env ∧ M.Holds right state env := by
  rw [Holds, eval_eq]
  change M.asBool ((shortOp .and (M.asBool (M.eval left state env))
    (M.asBool (M.eval right state env))).map Val.bool) = some true ↔ _
  rw [Holds, Holds]
  rcases M.asBool (M.eval left state env) with _ | _ | _
  · simp [shortOp, asBool]
  · simp [shortOp, asBool]
  · rcases M.asBool (M.eval right state env) with _ | b
    · simp [shortOp, asBool]
    · simp [shortOp, asBool]

theorem holds_conjoin {conjuncts : List Expr} :
    M.Holds (Expr.conjoin conjuncts) state env ↔
      ∀ conjunct ∈ conjuncts, M.Holds conjunct state env := by
  induction conjuncts with
  | nil =>
    rw [Holds, eval_eq]
    exact ⟨fun _ _ h => absurd h List.not_mem_nil, fun _ => rfl⟩
  | cons conjunct conjuncts ih => rw [Expr.conjoin, holds_mkAnd, ih, List.forall_mem_cons]

end Model

namespace Borrows

open Prusti.Lib

/-- A node of the DAG. -/
structure Node where
  /-- Under what condition the borrow was created. -/
  guard : Expr
  borrow : Borrow
  reborrowingNodes : List Borrow
  reborrowedNodes : List Borrow
  borrowedPlaces : List Expr

/-- The DAG, with a map from borrows to the indices of their nodes. -/
structure DAG where
  borrowIndices : HashMap Borrow Nat
  nodes : List Node
  borrowedPlaces : List Expr

namespace DAG

def getBorrowIndex (dag : DAG) (borrow : Borrow) : Option Nat := dag.borrowIndices.get? borrow

def checkIntegrity (dag : DAG) : Bool :=
  dag.nodes.head?.all (fun first => first.reborrowingNodes.isEmpty) &&
    dag.nodes.getLast?.all (fun last => last.reborrowedNodes.isEmpty) &&
    dag.nodes.length == dag.borrowIndices.entries.length &&
    dag.nodes.zipIdx.all fun entry =>
      dag.borrowIndices.get? entry.1.borrow == some entry.2 &&
        entry.1.reborrowingNodes.all dag.borrowIndices.contains &&
        entry.1.reborrowedNodes.all dag.borrowIndices.contains

/-- Visit the node of a borrow.  The state is the queue, the table of the visited nodes,
and the nodes whose guards are conjoined. -/
def visitBorrow (dag : DAG) (state : List Nat × List Bool × List Nat) (borrow : Borrow) :
    Option (List Nat × List Bool × List Nat) := do
  let borrowIndex ← dag.borrowIndices.get? borrow
  let seen ← state.2.1[borrowIndex]?
  if seen then some state
  else some (state.1 ++ [borrowIndex], state.2.1.set borrowIndex true, state.2.2 ++ [borrowIndex])

def guardLoop (dag : DAG) : Nat → List Nat × List Bool × List Nat → Option (List Nat)
  | _, ([], _, guardIndices) => some guardIndices
  | 0, (_ :: _, _, _) => none
  | fuel + 1, (currIndex :: toVisit, visited, guardIndices) => do
    let currNode ← dag.nodes[currIndex]?
    let state ← currNode.reborrowingNodes.foldlM dag.visitBorrow (toVisit, visited, guardIndices)
    dag.guardLoop fuel state

/-- The complete guard of a node. -/
def guard (dag : DAG) (expiringBorrow : Borrow) : Option Expr := do
  let index ← dag.getBorrowIndex expiringBorrow
  if index < dag.nodes.length then
    let guardIndices ← dag.guardLoop dag.nodes.length
      ([index], (List.replicate dag.nodes.length false).set index true, [index])
    let guards ← guardIndices.mapM fun index => dag.nodes[index]?.map (·.guard)
    some (Expr.conjoin guards)
  else none

/-- The second node reborrows from the first one. -/
def Reborrows (dag : DAG) (node node' : Node) : Prop :=
  node' ∈ dag.nodes ∧ node'.borrow ∈ node.reborrowingNodes

end DAG

namespace DAGBuilder

def new : DAG := ⟨HashMap.empty, [], []⟩

def addNode (dag : DAG) (node : Node) : Option DAG :=
  if dag.borrowIndices.contains node.borrow then none
  else some
    { borrowIndices := dag.borrowIndices.insert node.borrow dag.nodes.length
      nodes := dag.nodes ++ [node]
      borrowedPlaces := dag.borrowedPlaces ++ node.borrowedPlaces }

def finish (dag : DAG) : Option DAG :=
  if dag.checkIntegrity then some dag else none

/-- Add the nodes one after the other. -/
def build (nodes : List Node) : Option DAG := do
  let dag ← nodes.foldlM addNode new
  finish dag

end DAGBuilder

namespace DAG

/-- The map gives the index of the node of a borrow. -/
def IndicesMatch (dag : DAG) : Prop :=
  ∀ borrow index, dag.borrowIndices.get? borrow = some index ↔
    ∃ node, dag.nodes[index]? = some node ∧ node.borrow = borrow

theorem IndicesMatch.addNode {dag dag' : DAG} (h : dag.IndicesMatch)
    (hadd : DAGBuilder.addNode dag node = some dag') : dag'.IndicesMatch := by
  rw [DAGBuilder.addNode] at hadd
  split at hadd
  · cases hadd
  · next hnew =>
      cases hadd
      have hnone : dag.borrowIndices.get? node.borrow = none :=
        (HashMap.contains_eq_false_iff _ _).mp (Bool.eq_false_of_not_eq_true hnew)
      intro borrow index
      have hlast : (∃ other, (dag.nodes ++ [node])[index]? = some other ∧ other.borrow = borrow) ↔
          (∃ other, dag.nodes[index]? = some other ∧ other.borrow = borrow) ∨
            index = dag.nodes.length ∧ node.borrow = borrow := by
        rcases lt_trichotomy index dag.nodes.length with hlt | rfl | hgt
        · rw [List.getElem?_append_left hlt]
          refine ⟨.inl, ?_⟩
          rintro (hold | ⟨heq, -⟩)
          · exact hold
          · exact absurd heq hlt.ne
        · simp
        · have hout : (dag.nodes ++ [node])[index]? = none := by
            rw [List.getElem?_eq_none_iff, List.length_append, List.length_singleton]
            omega
          have hout' : dag.nodes[index]? = none := List.getElem?_eq_none_iff.mpr hgt.le
          simp [hout, hout', hgt.ne']
      rw [HashMap.get?_insert, hlast, ← h borrow index]
      by_cases hborrow : node.borrow = borrow
      · subst hborrow
        rw [if_pos BEq.rfl, hnone]
        simp [eq_comm]
      · rw [if_neg (by simpa using hborrow)]
        simp [hborrow]

theorem indicesMatch_build {nodes : List Node} {dag : DAG} (h : DAGBuilder.build nodes = some dag) :
    dag.IndicesMatch ∧ dag.checkIntegrity = true := by
  have hfold : ∀ (nodes : List Node) (start dag : DAG), start.IndicesMatch →
      nodes.foldlM DAGBuilder.addNode start = some dag → dag.IndicesMatch := by
    intro nodes
    induction nodes with
    | nil =>
      intro start dag hstart hdag
      cases hdag
      exact hstart
    | cons node nodes ih =>
      intro start dag hstart hdag
      rw [List.foldlM_cons] at hdag
      obtain ⟨next, hnext, hdag⟩ := Option.bind_eq_some_iff.mp hdag
      exact ih next dag (hstart.addNode hnext) hdag
  obtain ⟨built, hbuilt, hfinish⟩ := Option.bind_eq_some_iff.mp h
  rw [DAGBuilder.finish] at hfinish
  split at hfinish
  · next hintegrity =>
      cases hfinish
      refine ⟨hfold nodes DAGBuilder.new dag ?_ hbuilt, hintegrity⟩
      intro borrow index
      simp [DAGBuilder.new]
  · cases hfinish

/-- The nodes that a node is reborrowed by are nodes of the DAG. -/
theorem exists_index {dag : DAG} (hmatch : dag.IndicesMatch)
    (hintegrity : dag.checkIntegrity = true) (hnode : node ∈ dag.nodes) {borrow : Borrow}
    (hborrow : borrow ∈ node.reborrowingNodes) :
    ∃ index node', dag.borrowIndices.get? borrow = some index ∧
      dag.nodes[index]? = some node' ∧ node'.borrow = borrow := by
  simp only [checkIntegrity, Bool.and_eq_true, List.all_eq_true] at hintegrity
  obtain ⟨idx, hidx⟩ := List.mem_iff_getElem?.mp hnode
  have hentry := hintegrity.2 (node, idx) (List.mk_mem_zipIdx_iff_getElem?.mpr hidx)
  obtain ⟨index, hindex⟩ := (HashMap.contains_iff _ _).mp (hentry.1.2 borrow hborrow)
  obtain ⟨node', hnode', heq⟩ := (hmatch borrow index).mp hindex
  exact ⟨index, node', hindex, hnode', heq⟩

/-- The indices of the nodes that a node is reborrowed by. -/
def reborrowingIndices (dag : DAG) (index : Nat) : List Nat :=
  match dag.nodes[index]? with
  | some node => node.reborrowingNodes.filterMap dag.borrowIndices.get?
  | none => []

/-- The table marks the nodes that were found. -/
def Marks (dag : DAG) (visited : List Bool) (found : List Nat) : Prop :=
  ∀ index, visited[index]? =
    if index < dag.nodes.length then some (decide (index ∈ found)) else none

variable {dag : DAG} {visited : List Bool} {found : List Nat}

theorem visitBorrow_of_marks (queue : List Nat) (hmarks : dag.Marks visited found) {borrow : Borrow}
    (hindex : dag.borrowIndices.get? borrow = some index) (hlt : index < dag.nodes.length) :
    ∃ visited', dag.visitBorrow (queue, visited, found) borrow =
        some ((findVertex (queue, found) index).1, visited', (findVertex (queue, found) index).2) ∧
      dag.Marks visited' (findVertex (queue, found) index).2 := by
  have hseen := hmarks index
  rw [if_pos hlt] at hseen
  simp only [visitBorrow, hindex, hseen, Option.bind_eq_bind, Option.bind_some, findVertex]
  by_cases hfound : index ∈ found
  · exact ⟨visited, by simp [hfound], by simpa [hfound] using hmarks⟩
  · refine ⟨visited.set index true, by simp [hfound], ?_⟩
    rw [if_neg hfound]
    intro other
    rw [List.getElem?_set]
    by_cases hother : index = other
    · subst hother
      have hlength := (List.getElem?_eq_some_iff.mp hseen).1
      simp [hlength, hlt]
    · rw [if_neg hother, hmarks other]
      simp [Ne.symm hother]

theorem foldlM_visitBorrow (queue : List Nat) (hmarks : dag.Marks visited found)
    {borrows : List Borrow} (hborrows : ∀ borrow ∈ borrows, ∃ index,
      dag.borrowIndices.get? borrow = some index ∧ index < dag.nodes.length) :
    ∃ visited', borrows.foldlM dag.visitBorrow (queue, visited, found) =
        some (((borrows.filterMap dag.borrowIndices.get?).foldl findVertex (queue, found)).1,
          visited',
          ((borrows.filterMap dag.borrowIndices.get?).foldl findVertex (queue, found)).2) ∧
      dag.Marks visited'
        ((borrows.filterMap dag.borrowIndices.get?).foldl findVertex (queue, found)).2 := by
  induction borrows generalizing queue visited found with
  | nil => exact ⟨visited, rfl, hmarks⟩
  | cons borrow borrows ih =>
    rw [List.forall_mem_cons] at hborrows
    obtain ⟨⟨index, hindex, hlt⟩, hrest⟩ := hborrows
    obtain ⟨visited', hvisit, hmarks'⟩ := visitBorrow_of_marks queue hmarks hindex hlt
    rw [List.foldlM_cons, hvisit, List.filterMap_cons_some hindex, List.foldl_cons]
    exact ih _ hmarks' hrest

theorem mem_reborrowingIndices (hnode : dag.nodes[index]? = some node) {target : Nat} :
    target ∈ dag.reborrowingIndices index ↔
      ∃ borrow ∈ node.reborrowingNodes, dag.borrowIndices.get? borrow = some target := by
  rw [reborrowingIndices, hnode]
  exact List.mem_filterMap

section

variable (hmatch : dag.IndicesMatch)

include hmatch

/-- A node is reborrowed by nodes in the bounds of the table. -/
theorem exists_index_lt (hintegrity : dag.checkIntegrity = true) (hnode : node ∈ dag.nodes) :
    ∀ borrow ∈ node.reborrowingNodes, ∃ index, dag.borrowIndices.get? borrow = some index ∧
      index < dag.nodes.length := by
  intro borrow hborrow
  obtain ⟨index, node', hindex, hnode', -⟩ := exists_index hmatch hintegrity hnode hborrow
  exact ⟨index, hindex, (List.getElem?_eq_some_iff.mp hnode').1⟩

theorem lt_of_mem_reborrowingIndices (hintegrity : dag.checkIntegrity = true) {target : Nat}
    (htarget : target ∈ dag.reborrowingIndices index) : target < dag.nodes.length := by
  cases hnode : dag.nodes[index]? with
  | none => simp [reborrowingIndices, hnode] at htarget
  | some node =>
    obtain ⟨borrow, hborrow, hindex⟩ := (mem_reborrowingIndices hnode).mp htarget
    obtain ⟨index', hindex', hlt⟩ :=
      exists_index_lt hmatch hintegrity (List.mem_of_getElem? hnode) borrow hborrow
    rw [hindex] at hindex'
    cases hindex'
    exact hlt

/-- The loop over the queue is a breadth-first exploration. -/
theorem guardLoop_of_bfs (hintegrity : dag.checkIntegrity = true) {fuel : Nat} {found' : List Nat}
    (hmarks : dag.Marks visited found) (hqueue : ∀ index ∈ queue, index < dag.nodes.length)
    (hbfs : bfs dag.reborrowingIndices fuel queue found = some found') :
    dag.guardLoop fuel (queue, visited, found) = some found' := by
  induction fuel generalizing queue visited found with
  | zero =>
    cases queue with
    | nil => exact hbfs
    | cons current queue => cases hbfs
  | succ fuel ih =>
    cases queue with
    | nil => exact hbfs
    | cons current queue =>
      rw [List.forall_mem_cons] at hqueue
      obtain ⟨hcurrent, hqueue⟩ := hqueue
      have hnode : dag.nodes[current]? = some dag.nodes[current] :=
        List.getElem?_eq_getElem hcurrent
      have hnext : dag.reborrowingIndices current =
          dag.nodes[current].reborrowingNodes.filterMap dag.borrowIndices.get? := by
        rw [reborrowingIndices, hnode]
      obtain ⟨visited', hfold, hmarks'⟩ := foldlM_visitBorrow queue hmarks
        (exists_index_lt hmatch hintegrity (List.getElem_mem hcurrent))
      rw [bfs, hnext] at hbfs
      rw [guardLoop, hnode, Option.bind_eq_bind, Option.bind_some, hfold]
      refine ih hmarks' ?_ hbfs
      intro index hindex
      rcases mem_queue_foldl_findVertex hindex with hindex | hindex
      · exact hqueue index hindex
      · exact lt_of_mem_reborrowingIndices hmatch hintegrity (hnext ▸ hindex)

/-- The nodes that reborrow from a node stand at the indices that follow its index. -/
theorem reborrows_iff {other : Node} (hnode : dag.nodes[index]? = some node) :
    dag.Reborrows node other ↔
      ∃ target ∈ dag.reborrowingIndices index, dag.nodes[target]? = some other := by
  simp only [mem_reborrowingIndices hnode]
  constructor
  · rintro ⟨hother, hborrow⟩
    obtain ⟨target, htarget⟩ := List.mem_iff_getElem?.mp hother
    exact ⟨target, ⟨other.borrow, hborrow, (hmatch _ _).mpr ⟨other, htarget, rfl⟩⟩, htarget⟩
  · rintro ⟨target, ⟨borrow, hborrow, hindex⟩, htarget⟩
    obtain ⟨other', hother', rfl⟩ := (hmatch _ _).mp hindex
    rw [htarget] at hother'
    cases hother'
    exact ⟨List.mem_of_getElem? htarget, hborrow⟩

/-- What an index reaches are the nodes that reborrow from its node, in some steps. -/
theorem reaches_iff (hnode : dag.nodes[index]? = some node) {other : Node} :
    Relation.ReflTransGen dag.Reborrows node other ↔
      ∃ target, Reaches dag.reborrowingIndices index target ∧ dag.nodes[target]? = some other := by
  constructor
  · intro hreborrows
    induction hreborrows with
    | refl => exact ⟨index, .refl, hnode⟩
    | tail _ hstep ih =>
      obtain ⟨middle, hreach, hmiddle⟩ := ih
      obtain ⟨target, hedge, htarget⟩ := (reborrows_iff hmatch hmiddle).mp hstep
      exact ⟨target, hreach.tail hedge, htarget⟩
  · rintro ⟨target, hreach, htarget⟩
    induction hreach generalizing other with
    | refl =>
      rw [hnode] at htarget
      cases htarget
      exact .refl
    | @tail middle target hreach hedge ih =>
      have hmiddle : middle < dag.nodes.length := by
        by_contra hout
        have hnone : dag.nodes[middle]? = none :=
          List.getElem?_eq_none_iff.mpr (Nat.le_of_not_lt hout)
        simp [Edge, reborrowingIndices, hnone] at hedge
      have hmiddle := List.getElem?_eq_getElem hmiddle
      exact (ih hmiddle).tail ((reborrows_iff hmatch hmiddle).mpr ⟨target, hedge, htarget⟩)

/-- The indices that the guard is made of. -/
theorem exists_guardLoop (hintegrity : dag.checkIntegrity = true) (hlt : index < dag.nodes.length) :
    ∃ found, dag.guardLoop dag.nodes.length
        ([index], (List.replicate dag.nodes.length false).set index true, [index]) = some found ∧
      found.Nodup ∧ ∀ target, target ∈ found ↔ Reaches dag.reborrowingIndices index target := by
  have hbound : ∀ source ∈ List.range dag.nodes.length,
      dag.reborrowingIndices source ⊆ List.range dag.nodes.length := fun _ _ _ htarget =>
    List.mem_range.mpr (lt_of_mem_reborrowingIndices hmatch hintegrity htarget)
  obtain ⟨found, hbfs, hnodup, hmem⟩ := exists_bfs (List.mem_range.mpr hlt) hbound
  rw [List.length_range] at hbfs
  refine ⟨found, guardLoop_of_bfs hmatch hintegrity ?_ ?_ hbfs, hnodup, hmem⟩
  · intro other
    rw [List.getElem?_set, List.length_replicate, List.getElem?_replicate]
    by_cases hother : index = other
    · subst hother
      simp [hlt]
    · simp [hother, Ne.symm hother]
  · intro other hother
    rw [List.mem_singleton.mp hother]
    exact hlt

end

/-- The guard of a node is the conjunction of the guards of the nodes that reborrow from it
in some steps, each of which stands in it once. -/
theorem guard_covers_reborrows {nodes : List Node} (hbuild : DAGBuilder.build nodes = some dag)
    {node : Node} (hnode : node ∈ dag.nodes) :
    ∃ (expr : Expr) (reborrows : List Node),
      dag.guard node.borrow = some expr ∧
      expr = Expr.conjoin (reborrows.map (·.guard)) ∧
      (reborrows.map (·.borrow)).Nodup ∧
      (∀ other, other ∈ reborrows ↔ Relation.ReflTransGen dag.Reborrows node other) ∧
      ∀ (M : Model) (state : M.State) (env : M.Env), M.Holds expr state env ↔
        ∀ other, Relation.ReflTransGen dag.Reborrows node other →
          M.Holds other.guard state env := by
  obtain ⟨hmatch, hintegrity⟩ := indicesMatch_build hbuild
  obtain ⟨index, hindex⟩ := List.mem_iff_getElem?.mp hnode
  have hlt : index < dag.nodes.length := (List.getElem?_eq_some_iff.mp hindex).1
  have hborrow : dag.getBorrowIndex node.borrow = some index := (hmatch _ _).mpr ⟨node, hindex, rfl⟩
  obtain ⟨found, hloop, hnodup, hmem⟩ := exists_guardLoop hmatch hintegrity hlt
  have hfound : ∀ target ∈ found, ∃ other, dag.nodes[target]? = some other := by
    intro target htarget
    rcases ((hmem target).mp htarget).cases_tail with rfl | ⟨middle, -, hedge⟩
    · exact ⟨node, hindex⟩
    · exact ⟨_, List.getElem?_eq_getElem (lt_of_mem_reborrowingIndices hmatch hintegrity hedge)⟩
  obtain ⟨reborrows, hreborrows⟩ := exists_mapM_eq_some hfound
  have hall := mapM_eq_some_iff.mp hreborrows
  have hcover : ∀ other, other ∈ reborrows ↔ Relation.ReflTransGen dag.Reborrows node other := by
    intro other
    rw [reaches_iff hmatch hindex, mem_of_mapM_eq_some hreborrows]
    simp only [hmem]
  refine ⟨Expr.conjoin (reborrows.map (·.guard)), reborrows, ?_, rfl, ?_, hcover, ?_⟩
  · have hguards : found.mapM (fun index => dag.nodes[index]?.map (·.guard)) =
        some (reborrows.map (·.guard)) := by
      rw [mapM_eq_some_iff, List.forall₂_map_right_iff]
      exact hall.imp fun target other hother => by rw [hother, Option.map_some]
    simp only [guard, hborrow, Option.bind_eq_bind, Option.bind_some, if_pos hlt, hloop, hguards]
  · have hindices : (reborrows.map (·.borrow)).map dag.borrowIndices.get? = found.map some := by
      rw [← List.forall₂_eq_eq_eq, List.map_map, List.forall₂_map_left_iff,
        List.forall₂_map_right_iff]
      exact hall.flip.imp fun other target hother => (hmatch _ _).mpr ⟨other, hother, rfl⟩
    refine List.Nodup.of_map dag.borrowIndices.get? ?_
    rw [hindices]
    exact hnodup.map (Option.some_injective _)
  · intro M state env
    rw [Model.holds_conjoin, List.forall_mem_map]
    exact forall_congr' fun other => imp_congr_left (hcover other)

namespace Witness

def loan (borrow : Borrow) (reborrowingNodes reborrowedNodes : List Borrow) : Node :=
  { guard := Expr.localVar ⟨"guard", .bool⟩ Position.default
    borrow := borrow
    reborrowingNodes := reborrowingNodes
    reborrowedNodes := reborrowedNodes
    borrowedPlaces := [] }

/-- Two loans reborrow from the last one, and the first one from both. -/
def diamond : List Node :=
  [loan ⟨0⟩ [] [⟨1⟩, ⟨2⟩], loan ⟨1⟩ [⟨0⟩] [⟨3⟩], loan ⟨2⟩ [⟨0⟩] [⟨3⟩], loan ⟨3⟩ [⟨1⟩, ⟨2⟩] []]

def diamondDag : DAG := (DAGBuilder.build diamond).getD DAGBuilder.new

theorem diamond_covers_reborrows :
    DAGBuilder.build diamond = some diamondDag ∧
      ∃ (expr : Expr) (reborrows : List Node),
        diamondDag.guard ⟨3⟩ = some expr ∧
        expr = Expr.conjoin (reborrows.map (·.guard)) ∧
        (reborrows.map (·.borrow)).Nodup ∧
        (∀ other, other ∈ reborrows ↔
          Relation.ReflTransGen diamondDag.Reborrows (loan ⟨3⟩ [⟨1⟩, ⟨2⟩] []) other) ∧
        ∀ (M : Model) (state : M.State) (env : M.Env), M.Holds expr state env ↔
          ∀ other, Relation.ReflTransGen diamondDag.Reborrows (loan ⟨3⟩ [⟨1⟩, ⟨2⟩] []) other →
            M.Holds other.guard state env :=
  ⟨rfl, guard_covers_reborrows (show DAGBuilder.build diamond = some diamondDag from rfl)
    (.tail _ (.tail _ (.tail _ (.head _))))⟩

end Witness

end DAG

end Borrows

end Prusti.Vir

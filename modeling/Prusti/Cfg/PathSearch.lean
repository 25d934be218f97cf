/-
The search for a path between two blocks is a breadth-first one.  Every block that
it finds keeps the block it was reached from, which lies one edge closer to the
start, so that going back ends and gives a shortest path.
-/
import Prusti.Cfg.TopologicalSort
import Prusti.Lib.Distance

namespace Prusti.Cfg

open Prusti.Vir Prusti.Lib

variable {v current : Nat} {successor : CfgBlockIndex}

/-- Two indices of the same position, whatever methods they belong to. -/
def CfgBlockIndex.weakEq (index other : CfgBlockIndex) : Bool :=
  index.blockIndex == other.blockIndex

namespace CfgMethod

/-- The marks, the blocks that the blocks were reached from, and the queue. -/
structure PathSearch where
  visited : List Bool
  cameFrom : List (Option CfgBlockIndex)
  toVisit : List CfgBlockIndex
deriving Repr

/-- Go back to the start, where the fuel bounds the number of blocks on the way. -/
def traceBack (cameFrom : List (Option CfgBlockIndex)) :
    Nat → CfgBlockIndex → List CfgBlockIndex → Option (List CfgBlockIndex)
  | 0, _, _ => none
  | fuel + 1, index, path => do
    let origin ← cameFrom[index.blockIndex]?
    match origin with
    | some previous => traceBack cameFrom fuel previous (path ++ [previous])
    | none => some path

/-- Mark and enqueue a successor of a block unless it is marked. -/
def reachSuccessor (currIndex : CfgBlockIndex) (search : PathSearch) (successor : CfgBlockIndex) :
    Option PathSearch := do
  let marked ← search.visited[successor.blockIndex]?
  if marked then some search
  else
    some { visited := search.visited.set successor.blockIndex true
           cameFrom := search.cameFrom.set successor.blockIndex (some currIndex)
           toVisit := search.toVisit ++ [successor] }

/-- Go through the successors of a block.  The search ends with a path when the end
block is one of them. -/
def visitSuccessors (method : CfgMethod) (endBlock currIndex : CfgBlockIndex) :
    List CfgBlockIndex → PathSearch → Option (List CfgBlockIndex ⊕ PathSearch)
  | [], search => some (.inr search)
  | successor :: successors, search =>
    if successor.weakEq endBlock then do
      let path ← traceBack search.cameFrom method.basicBlocks.length currIndex
        [successor, currIndex]
      some (.inl path.reverse)
    else do
      let search ← reachSuccessor currIndex search successor
      method.visitSuccessors endBlock currIndex successors search

/-- The loop over the queue, where the fuel bounds the number of blocks that leave it. -/
def searchPath (method : CfgMethod) (endBlock : CfgBlockIndex) :
    Nat → PathSearch → Option (Option (List CfgBlockIndex))
  | _, ⟨_, _, []⟩ => some none
  | 0, ⟨_, _, _ :: _⟩ => none
  | fuel + 1, ⟨visited, cameFrom, currIndex :: toVisit⟩ => do
    let currBlock ← method.basicBlocks[currIndex.blockIndex]?
    let outcome ← method.visitSuccessors endBlock currIndex currBlock.successor.getFollowing
      ⟨visited, cameFrom, toVisit⟩
    match outcome with
    | .inl path => some (some path)
    | .inr search => method.searchPath endBlock fuel search

def findPath (method : CfgMethod) (startBlock endBlock : CfgBlockIndex) :
    Option (Option (List CfgBlockIndex)) :=
  if startBlock.weakEq endBlock then some (some [startBlock])
  else
    let blocks := method.basicBlocks.length
    if startBlock.blockIndex < blocks then
      method.searchPath endBlock blocks
        { visited := (List.replicate blocks false).set startBlock.blockIndex true
          cameFrom := List.replicate blocks none
          toVisit := [startBlock] }
    else none

section

variable {cfg : CfgMethod} {start goal : Nat} {expanded : List Nat} {search : PathSearch}

/-- The distance of a block from the start. -/
noncomputable def depth (cfg : CfgMethod) (start index : Nat) : Nat :=
  distance (Edge cfg.following) start index

/-- The blocks that were found: those that were expanded and those in the queue. -/
def PathSearch.found (search : PathSearch) (expanded : List Nat) : List Nat :=
  expanded ++ search.toVisit.map (·.blockIndex)

/-- The search found blocks in the order of their depths, and each of them knows a
block that is closer to the start. -/
structure Found (cfg : CfgMethod) (start goal : Nat) (expanded : List Nat)
    (search : PathSearch) : Prop where
  length_visited : search.visited.length = cfg.basicBlocks.length
  length_cameFrom : search.cameFrom.length = cfg.basicBlocks.length
  marked_eq : marked search.visited = { index | index ∈ search.found expanded }
  nodup : (search.found expanded).Nodup
  sorted : (search.found expanded).Pairwise fun u v => cfg.depth start u ≤ cfg.depth start v
  start_mem : start ∈ search.found expanded
  goal_not_mem : goal ∉ search.found expanded
  reaches : ∀ v ∈ search.found expanded, Reaches cfg.following start v
  origin : ∀ v ∈ search.found expanded,
    search.cameFrom[v]? = some none ∧ v = start ∨
      ∃ previous, search.cameFrom[v]? = some (some previous) ∧ previous.blockIndex ∈ expanded ∧
        Edge cfg.following previous.blockIndex v ∧
        cfg.depth start v = cfg.depth start previous.blockIndex + 1
  depth_le : ∀ v ∈ search.found expanded, cfg.depth start v ≤ expanded.length

/-- The result of the search: a path with as many edges as the depth of its end. -/
def IsShortest (cfg : CfgMethod) (start goal : Nat) : Option (List CfgBlockIndex) → Prop
  | none => ¬ Reaches cfg.following start goal
  | some path => IsPath (Edge cfg.following) start goal (path.map (·.blockIndex)) ∧
      path.length = cfg.depth start goal + 1

namespace Found

section

variable (h : Found cfg start goal expanded search)

include h

theorem lt_length {index : Nat} (hindex : index ∈ search.found expanded) :
    index < cfg.basicBlocks.length := by
  have hmarked : index ∈ marked search.visited := by
    rw [h.marked_eq]
    exact hindex
  rw [← h.length_visited]
  exact (List.getElem?_eq_some_iff.mp hmarked).1

/-- Going back from a block gives a path to it with as many edges as its depth. -/
theorem exists_traceBack (fuel : Nat) (index : CfgBlockIndex)
    (hindex : index.blockIndex ∈ search.found expanded)
    (hfuel : cfg.depth start index.blockIndex < fuel) (path : List CfgBlockIndex) :
    ∃ back, traceBack search.cameFrom fuel index path = some (path ++ back) ∧
      IsPath (Edge cfg.following) start index.blockIndex
        ((back.reverse ++ [index]).map (·.blockIndex)) ∧
      back.length = cfg.depth start index.blockIndex := by
  induction fuel generalizing index path with
  | zero => exact absurd hfuel (Nat.not_lt_zero _)
  | succ fuel ih =>
    rcases h.origin _ hindex with ⟨horigin, hstart⟩ | ⟨previous, horigin, hprevious, hedge, hdepth⟩
    · refine ⟨[], ?_, ?_, ?_⟩
      · simp [traceBack, horigin]
      · rw [hstart]
        exact ⟨by simp [hstart], by simp [hstart], .singleton _⟩
      · rw [hstart, depth, distance_root]
        rfl
    · obtain ⟨back, heq, hpath, hlength⟩ := ih previous
        (List.mem_append_left _ hprevious) (by omega) (path ++ [previous])
      refine ⟨previous :: back, ?_, ?_, ?_⟩
      · simp [traceBack, horigin, heq]
      · rw [List.reverse_cons, List.map_append]
        exact hpath.concat hedge
      · rw [List.length_cons, hlength, hdepth]

/-- Blocks that are not farther from the start than the first one in the queue are found. -/
theorem mem_of_isPath
    (hclosed : ∀ u ∈ expanded, ∀ v, Edge cfg.following u v → v ∈ search.found expanded)
    (level : Nat) (hlevel : ∀ index ∈ search.toVisit, level ≤ cfg.depth start index.blockIndex)
    {path : List Nat} (hpath : IsPath (Edge cfg.following) start v path)
    (hlength : path.length ≤ level + 1) : v ∈ search.found expanded := by
  induction path using List.reverseRecOn generalizing v with
  | nil => cases hpath.first
  | append_singleton front last ih =>
    rcases hpath.cases_concat with ⟨-, rfl⟩ | ⟨front', u, heq, hfront, hedge⟩
    · exact h.start_mem
    · obtain ⟨rfl, -⟩ := List.append_inj' heq rfl
      rw [List.length_append, List.length_singleton] at hlength
      have hu := ih hfront (by omega)
      rcases List.mem_append.mp hu with hexpanded | hqueue
      · exact hclosed u hexpanded v hedge
      · -- the queue holds no block of such a small depth
        obtain ⟨index, hindex, rfl⟩ := List.mem_map.mp hqueue
        have hlt := hfront.distance_lt
        have hge := hlevel index hindex
        rw [depth] at hge
        omega

/-- With an empty queue all blocks that can be reached are found. -/
theorem not_reaches
    (hclosed : ∀ u ∈ expanded, ∀ v, Edge cfg.following u v → v ∈ search.found expanded)
    (hempty : search.toVisit = []) : ¬ Reaches cfg.following start goal := by
  intro hreach
  obtain ⟨path, hpath, -⟩ := exists_shortest_path hreach
  exact h.goal_not_mem (h.mem_of_isPath hclosed path.length (by simp [hempty]) hpath
    (Nat.le_succ _))

theorem length_le : expanded.length + search.toVisit.length ≤ cfg.basicBlocks.length := by
  have hsubset : search.found expanded ⊆ List.range cfg.basicBlocks.length := fun index hindex =>
    List.mem_range.mpr (h.lt_length hindex)
  have hlength := (h.nodup.subperm hsubset).length_le
  rwa [PathSearch.found, List.length_append, List.length_map, List.length_range] at hlength

end

/-- No block is found more than one edge behind the last one that was expanded. -/
theorem depth_le_succ (h : Found cfg start goal (expanded ++ [current]) search)
    (hv : v ∈ search.found (expanded ++ [current])) :
    cfg.depth start v ≤ cfg.depth start current + 1 := by
  rcases h.origin v hv with ⟨-, rfl⟩ | ⟨previous, -, hprevious, -, hdepth⟩
  · rw [depth, distance_root]
    exact Nat.zero_le _
  · have hsorted := (List.pairwise_append.mp (List.pairwise_append.mp h.sorted).1).2.2
    rw [hdepth]
    rcases List.mem_append.mp hprevious with hexpanded | hcurrent
    · exact Nat.succ_le_succ (hsorted _ hexpanded current (List.mem_singleton_self current))
    · rw [List.mem_singleton.mp hcurrent]

end Found

/-- While a block is expanded, all blocks that are no farther from the start are found. -/
structure Expanding (cfg : CfgMethod) (start goal : Nat) (expanded : List Nat) (current : Nat)
    (search : PathSearch) : Prop where
  found : Found cfg start goal (expanded ++ [current]) search
  complete : ∀ v path, IsPath (Edge cfg.following) start v path →
    path.length ≤ cfg.depth start current + 1 → v ∈ search.found (expanded ++ [current])
  depth_le : cfg.depth start current ≤ expanded.length

namespace Expanding

variable {currIndex : CfgBlockIndex}

theorem current_mem : current ∈ search.found (expanded ++ [current]) :=
  List.mem_append_left _ (List.mem_append_right _ (List.mem_singleton_self current))

/-- A successor that is not found yet lies one edge farther from the start. -/
theorem depth_of_not_mem (h : Expanding cfg start goal expanded current search)
    (hedge : Edge cfg.following current v) (hv : v ∉ search.found (expanded ++ [current])) :
    cfg.depth start v = cfg.depth start current + 1 := by
  have hcurrent := h.found.reaches current current_mem
  refine Nat.le_antisymm (distance_le_of_edge hcurrent hedge) ?_
  obtain ⟨path, hpath, hlength⟩ := exists_shortest_path (hcurrent.tail hedge)
  have hfar := mt (h.complete v path hpath) hv
  rw [hlength] at hfar
  exact Nat.lt_of_not_le (mt Nat.succ_le_succ hfar)

section

variable (h : Expanding cfg start goal expanded currIndex.blockIndex search)
  (hedge : Edge cfg.following currIndex.blockIndex successor.blockIndex)
  (hgoal : successor.blockIndex ≠ goal)

include h hedge hgoal

theorem enqueue (hbound : successor.blockIndex < cfg.basicBlocks.length)
    (hnew : successor.blockIndex ∉ search.found (expanded ++ [currIndex.blockIndex])) :
    Expanding cfg start goal expanded currIndex.blockIndex
      { visited := search.visited.set successor.blockIndex true
        cameFrom := search.cameFrom.set successor.blockIndex (some currIndex)
        toVisit := search.toVisit ++ [successor] } := by
  have hdepth := h.depth_of_not_mem hedge hnew
  let search' : PathSearch :=
    { visited := search.visited.set successor.blockIndex true
      cameFrom := search.cameFrom.set successor.blockIndex (some currIndex)
      toVisit := search.toVisit ++ [successor] }
  have hfound : search'.found (expanded ++ [currIndex.blockIndex]) =
      search.found (expanded ++ [currIndex.blockIndex]) ++ [successor.blockIndex] := by
    simp [search', PathSearch.found]
  refine ⟨⟨?_, ?_, ?_, ?_, ?_, ?_, ?_, ?_, ?_, ?_⟩, ?_, h.depth_le⟩
  · rw [List.length_set]
    exact h.found.length_visited
  · rw [List.length_set]
    exact h.found.length_cameFrom
  · rw [marked_set _ _ (h.found.length_visited ▸ hbound), h.found.marked_eq, hfound]
    ext v
    simp [or_comm]
  · rw [hfound, ← List.concat_eq_append]
    exact h.found.nodup.concat hnew
  · rw [hfound]
    refine List.pairwise_append.mpr ⟨h.found.sorted, List.pairwise_singleton _ _, ?_⟩
    intro u hu v hv
    rw [List.mem_singleton.mp hv, hdepth]
    exact h.found.depth_le_succ hu
  · rw [hfound]
    exact List.mem_append_left _ h.found.start_mem
  · rw [hfound, List.mem_append, List.mem_singleton]
    rintro (hmem | hmem)
    · exact h.found.goal_not_mem hmem
    · exact hgoal hmem.symm
  · intro v hv
    rw [hfound, List.mem_append, List.mem_singleton] at hv
    rcases hv with hv | rfl
    · exact h.found.reaches v hv
    · exact (h.found.reaches _ current_mem).tail hedge
  · intro v hv
    rw [hfound, List.mem_append, List.mem_singleton] at hv
    rcases hv with hv | rfl
    · have hne : successor.blockIndex ≠ v := fun heq => hnew (heq ▸ hv)
      rw [List.getElem?_set_ne hne]
      exact h.found.origin v hv
    · right
      refine ⟨currIndex, ?_, List.mem_append_right _ (List.mem_singleton_self _), hedge, hdepth⟩
      exact List.getElem?_set_self (h.found.length_cameFrom ▸ hbound)
  · intro v hv
    rw [hfound, List.mem_append, List.mem_singleton] at hv
    rcases hv with hv | rfl
    · exact h.found.depth_le v hv
    · rw [hdepth, List.length_append, List.length_singleton]
      exact Nat.succ_le_succ h.depth_le
  · intro v path hpath hlength
    rw [hfound]
    exact List.mem_append_left _ (h.complete v path hpath hlength)

/-- A successor is found afterwards, and what was found stays found. -/
theorem exists_reachSuccessor (hbound : successor.blockIndex < cfg.basicBlocks.length) :
    ∃ search', reachSuccessor currIndex search successor = some search' ∧
      Expanding cfg start goal expanded currIndex.blockIndex search' ∧
      successor.blockIndex ∈ search'.found (expanded ++ [currIndex.blockIndex]) ∧
      ∀ v ∈ search.found (expanded ++ [currIndex.blockIndex]),
        v ∈ search'.found (expanded ++ [currIndex.blockIndex]) := by
  have hvisited : successor.blockIndex < search.visited.length := by
    rwa [h.found.length_visited]
  have hmarked : search.visited[successor.blockIndex] = true ↔
      successor.blockIndex ∈ search.found (expanded ++ [currIndex.blockIndex]) := by
    have hmem : successor.blockIndex ∈ marked search.visited ↔ _ :=
      Set.ext_iff.mp h.found.marked_eq successor.blockIndex
    rwa [marked, Set.mem_ofPred_eq, List.getElem?_eq_getElem hvisited, Option.some.injEq] at hmem
  by_cases hfound : successor.blockIndex ∈ search.found (expanded ++ [currIndex.blockIndex])
  · refine ⟨search, ?_, h, hfound, fun v hv => hv⟩
    simp [reachSuccessor, hvisited, hmarked.mpr hfound]
  · refine ⟨_, ?_, h.enqueue hedge hgoal hbound hfound, ?_, ?_⟩
    · simp [reachSuccessor, hvisited, mt hmarked.mp hfound]
    · simp [PathSearch.found]
    · intro v hv
      simp only [PathSearch.found, List.map_append, List.mem_append] at hv ⊢
      tauto

end

/-- The path through a block that jumps to the end. -/
theorem exists_path (h : Expanding cfg start goal expanded currIndex.blockIndex search)
    (hgoal : successor.blockIndex = goal) (hedge : Edge cfg.following currIndex.blockIndex goal) :
    ∃ path, traceBack search.cameFrom cfg.basicBlocks.length currIndex
        [successor, currIndex] = some path ∧ cfg.IsShortest start goal (some path.reverse) := by
  have hlength := h.found.length_le
  rw [List.length_append, List.length_singleton] at hlength
  have hdepth := h.depth_le
  obtain ⟨back, heq, hpath, hback⟩ := h.found.exists_traceBack
    cfg.basicBlocks.length currIndex current_mem (by omega)
    [successor, currIndex]
  refine ⟨_, heq, ?_, ?_⟩
  · have hwhole := hpath.concat hedge
    simpa [hgoal] using hwhole
  · rw [h.depth_of_not_mem hedge h.found.goal_not_mem, ← hback]
    simp

theorem exists_visitSuccessors {endBlock : CfgBlockIndex} (hcfg : cfg.TargetsInRange)
    (h : Expanding cfg start endBlock.blockIndex expanded currIndex.blockIndex search)
    {successors : List CfgBlockIndex}
    (hedges : ∀ successor ∈ successors,
      Edge cfg.following currIndex.blockIndex successor.blockIndex) :
    (∃ path, cfg.visitSuccessors endBlock currIndex successors search = some (.inl path) ∧
      cfg.IsShortest start endBlock.blockIndex (some path)) ∨
    ∃ search', cfg.visitSuccessors endBlock currIndex successors search = some (.inr search') ∧
      Expanding cfg start endBlock.blockIndex expanded currIndex.blockIndex search' ∧
      (∀ successor ∈ successors,
        successor.blockIndex ∈ search'.found (expanded ++ [currIndex.blockIndex])) ∧
      ∀ v ∈ search.found (expanded ++ [currIndex.blockIndex]),
        v ∈ search'.found (expanded ++ [currIndex.blockIndex]) := by
  induction successors generalizing search with
  | nil => exact .inr ⟨search, rfl, h, by simp, fun v hv => hv⟩
  | cons successor successors ih =>
    obtain ⟨hedge, hedges⟩ := List.forall_mem_cons.mp hedges
    by_cases hgoal : successor.blockIndex = endBlock.blockIndex
    · obtain ⟨path, heq, hshortest⟩ := h.exists_path hgoal (hgoal ▸ hedge)
      refine .inl ⟨path.reverse, ?_, hshortest⟩
      simp [visitSuccessors, CfgBlockIndex.weakEq, hgoal, heq]
    · obtain ⟨middle, hmiddle, hexpanding, hsuccessor, hkept⟩ :=
        h.exists_reachSuccessor hedge hgoal (lt_of_mem_following hcfg hedge).2
      have hvisit : cfg.visitSuccessors endBlock currIndex (successor :: successors) search =
          cfg.visitSuccessors endBlock currIndex successors middle := by
        simp [visitSuccessors, CfgBlockIndex.weakEq, hgoal, hmiddle]
      rw [hvisit]
      rcases ih hexpanding hedges with hpath | ⟨search', heq, hexpanding', hall, hkept'⟩
      · exact .inl hpath
      · refine .inr ⟨search', heq, hexpanding', ?_, fun v hv => hkept' v (hkept v hv)⟩
        rw [List.forall_mem_cons]
        exact ⟨hkept' _ hsuccessor, hall⟩

end Expanding

/-- The first block of the queue starts to be expanded. -/
theorem Found.expanding {visited : List Bool} {cameFrom : List (Option CfgBlockIndex)}
    {currIndex : CfgBlockIndex} {toVisit : List CfgBlockIndex}
    (h : Found cfg start goal expanded ⟨visited, cameFrom, currIndex :: toVisit⟩)
    (hclosed : ∀ u ∈ expanded, ∀ v, Edge cfg.following u v →
      v ∈ PathSearch.found ⟨visited, cameFrom, currIndex :: toVisit⟩ expanded) :
    Expanding cfg start goal expanded currIndex.blockIndex ⟨visited, cameFrom, toVisit⟩ := by
  have hfound : PathSearch.found ⟨visited, cameFrom, toVisit⟩
      (expanded ++ [currIndex.blockIndex]) =
      PathSearch.found ⟨visited, cameFrom, currIndex :: toVisit⟩ expanded := by
    simp [PathSearch.found]
  have hcurrent : currIndex.blockIndex ∈
      PathSearch.found ⟨visited, cameFrom, currIndex :: toVisit⟩ expanded :=
    List.mem_append_right _ List.mem_cons_self
  have hsorted := (List.pairwise_append.mp h.sorted).2.1
  refine ⟨⟨h.length_visited, h.length_cameFrom, ?_, ?_, ?_, ?_, ?_, ?_, ?_, ?_⟩, ?_, ?_⟩
  · rw [hfound]
    exact h.marked_eq
  · rw [hfound]
    exact h.nodup
  · rw [hfound]
    exact h.sorted
  · rw [hfound]
    exact h.start_mem
  · rw [hfound]
    exact h.goal_not_mem
  · rw [hfound]
    exact h.reaches
  · intro v hv
    rw [hfound] at hv
    refine (h.origin v hv).imp_right ?_
    rintro ⟨previous, horigin, hprevious, hrest⟩
    exact ⟨previous, horigin, List.mem_append_left _ hprevious, hrest⟩
  · intro v hv
    rw [hfound] at hv
    rw [List.length_append]
    exact Nat.le_add_right_of_le (h.depth_le v hv)
  · intro v path hpath hlength
    rw [hfound]
    refine h.mem_of_isPath hclosed _ ?_ hpath hlength
    intro index hindex
    rcases List.mem_cons.mp hindex with rfl | hindex
    · exact le_rfl
    · exact (List.pairwise_cons.mp hsorted).1 _ (List.mem_map_of_mem hindex)
  · exact h.depth_le _ hcurrent

theorem Found.exists_searchPath {endBlock : CfgBlockIndex} (hcfg : cfg.TargetsInRange)
    (h : Found cfg start endBlock.blockIndex expanded search)
    (hclosed : ∀ u ∈ expanded, ∀ v, Edge cfg.following u v → v ∈ search.found expanded)
    (fuel : Nat) (hfuel : cfg.basicBlocks.length ≤ fuel + expanded.length) :
    ∃ result, cfg.searchPath endBlock fuel search = some result ∧
      cfg.IsShortest start endBlock.blockIndex result := by
  obtain ⟨visited, cameFrom, toVisit⟩ := search
  induction fuel generalizing expanded visited cameFrom toVisit with
  | zero =>
    cases toVisit with
    | nil => exact ⟨none, rfl, h.not_reaches hclosed rfl⟩
    | cons currIndex toVisit =>
      have hlength := h.length_le
      rw [List.length_cons] at hlength
      omega
  | succ fuel ih =>
    cases toVisit with
    | nil => exact ⟨none, rfl, h.not_reaches hclosed rfl⟩
    | cons currIndex toVisit =>
      have hbound : currIndex.blockIndex < cfg.basicBlocks.length :=
        h.lt_length (List.mem_append_right _ List.mem_cons_self)
      obtain ⟨block, hblock⟩ : ∃ block, cfg.basicBlocks[currIndex.blockIndex]? = some block :=
        ⟨_, List.getElem?_eq_getElem hbound⟩
      have hfollowing := following_of_getElem? hblock
      have hexpanding := h.expanding hclosed
      have hedges : ∀ successor ∈ block.successor.getFollowing,
          Edge cfg.following currIndex.blockIndex successor.blockIndex := by
        intro successor hsuccessor
        rw [Edge, hfollowing]
        exact List.mem_map_of_mem hsuccessor
      rcases hexpanding.exists_visitSuccessors hcfg hedges with
        ⟨path, heq, hshortest⟩ | ⟨search', heq, hexpanding', hall, hkept⟩
      · refine ⟨some path, ?_, hshortest⟩
        simp [searchPath, hblock, heq]
      · have hclosed' : ∀ u ∈ expanded ++ [currIndex.blockIndex], ∀ v,
            Edge cfg.following u v → v ∈ search'.found (expanded ++ [currIndex.blockIndex]) := by
          intro u hu v hedge
          rcases List.mem_append.mp hu with hu | hu
          · refine hkept v ?_
            simpa [PathSearch.found] using hclosed u hu v hedge
          · rw [List.mem_singleton.mp hu, Edge, hfollowing] at hedge
            obtain ⟨successor, hsuccessor, rfl⟩ := List.mem_map.mp hedge
            exact hall successor hsuccessor
        have hfuel' : cfg.basicBlocks.length ≤
            fuel + (expanded ++ [currIndex.blockIndex]).length := by
          rw [List.length_append, List.length_singleton]
          omega
        obtain ⟨result, hresult, hshortest⟩ := ih hfuel' _ _ _ hexpanding'.found hclosed'
        refine ⟨result, ?_, hshortest⟩
        simp [searchPath, hblock, heq, hresult]

/-- At the beginning the start is found. -/
theorem found_start {startBlock : CfgBlockIndex}
    (hstart : startBlock.blockIndex < cfg.basicBlocks.length)
    (hgoal : startBlock.blockIndex ≠ goal) :
    Found cfg startBlock.blockIndex goal []
      { visited := (List.replicate cfg.basicBlocks.length false).set startBlock.blockIndex true
        cameFrom := List.replicate cfg.basicBlocks.length none
        toVisit := [startBlock] } where
  length_visited := by simp
  length_cameFrom := List.length_replicate
  marked_eq := by
    rw [marked_set _ _ (by simpa using hstart)]
    ext index
    simp [marked, List.getElem?_replicate, PathSearch.found]
  nodup := List.nodup_singleton _
  sorted := List.pairwise_singleton _ _
  start_mem := List.mem_singleton_self _
  goal_not_mem := fun hmem => hgoal (List.mem_singleton.mp hmem).symm
  reaches := by
    intro v hv
    rw [List.mem_singleton.mp hv]
    exact .refl
  origin := by
    intro v hv
    rw [List.mem_singleton.mp hv]
    exact .inl ⟨by simp [hstart], rfl⟩
  depth_le := by
    intro v hv
    rw [List.mem_singleton.mp hv, depth, distance_root]
    exact le_rfl

theorem exists_findPath (hcfg : cfg.TargetsInRange) (startBlock endBlock : CfgBlockIndex)
    (hstart : startBlock.blockIndex < cfg.basicBlocks.length) :
    ∃ result, cfg.findPath startBlock endBlock = some result ∧
      cfg.IsShortest startBlock.blockIndex endBlock.blockIndex result := by
  by_cases heq : startBlock.blockIndex = endBlock.blockIndex
  · refine ⟨some [startBlock], by simp [findPath, CfgBlockIndex.weakEq, heq], ?_, ?_⟩
    · exact ⟨rfl, by simp [heq], .singleton _⟩
    · rw [← heq, depth, distance_root]
      rfl
  · obtain ⟨result, hresult, hshortest⟩ := (found_start hstart heq).exists_searchPath hcfg
      (by simp) cfg.basicBlocks.length (Nat.le_add_right _ _)
    refine ⟨result, ?_, hshortest⟩
    simp [findPath, CfgBlockIndex.weakEq, heq, hstart, hresult]

end

/-- The search ends.  It finds nothing exactly if the end block cannot be reached, and what
it finds is a path that is not longer than any other one. -/
theorem findPath_shortest (cfg : CfgMethod) (hcfg : cfg.TargetsInRange)
    (startBlock endBlock : CfgBlockIndex)
    (hstart : startBlock.blockIndex < cfg.basicBlocks.length) :
    ∃ result, cfg.findPath startBlock endBlock = some result ∧
      (result = none ↔ ¬ Reaches cfg.following startBlock.blockIndex endBlock.blockIndex) ∧
      ∀ path, result = some path →
        IsPath (Edge cfg.following) startBlock.blockIndex endBlock.blockIndex
          (path.map (·.blockIndex)) ∧
        ∀ other, IsPath (Edge cfg.following) startBlock.blockIndex endBlock.blockIndex other →
          path.length ≤ other.length := by
  obtain ⟨result, hresult, hshortest⟩ := exists_findPath hcfg startBlock endBlock hstart
  refine ⟨result, hresult, ?_, ?_⟩
  · cases result with
    | none => exact ⟨fun _ => hshortest, fun _ => rfl⟩
    | some path => exact ⟨nofun, fun h => absurd hshortest.1.reaches h⟩
  · rintro path rfl
    refine ⟨hshortest.1, fun other hother => ?_⟩
    rw [hshortest.2]
    exact hother.distance_lt

namespace Witness

/-- There is a path to the second block, over its edge. -/
theorem oneEdge_findPath :
    ∃ result, oneEdge.findPath ⟨0, 0⟩ ⟨0, 1⟩ = some result ∧
      (result = none ↔ ¬ Reaches oneEdge.following 0 1) := by
  obtain ⟨result, hresult, hnone, -⟩ :=
    findPath_shortest oneEdge oneEdge_targetsInRange ⟨0, 0⟩ ⟨0, 1⟩ (by decide)
  exact ⟨result, hresult, hnone⟩

end Witness

end CfgMethod

end Prusti.Cfg

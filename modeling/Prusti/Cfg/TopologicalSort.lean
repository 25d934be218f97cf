/-
The topological sort of the blocks is a depth-first exploration: it lists
every block once, the first block first, and the source of an edge before its
target unless there is a way back.
-/
import Prusti.Cfg.Method
import Prusti.Lib.Dfs

namespace Prusti.Cfg

open Prusti.Vir Prusti.Lib

namespace CfgMethod

/-- The positions of the blocks that a block jumps to. -/
def following (cfg : CfgMethod) (index : Nat) : List Nat :=
  match cfg.basicBlocks[index]? with
  | some block => block.successor.targets
  | none => []

theorem following_of_getElem? {cfg : CfgMethod} {index : Nat} {block : CfgBlock}
    (h : cfg.basicBlocks[index]? = some block) :
    cfg.following index = block.successor.targets := by
  rw [following, h]

theorem lt_of_mem_following {cfg : CfgMethod} (hcfg : cfg.TargetsInRange)
    {source target : Nat} (h : target ∈ cfg.following source) :
    source < cfg.basicBlocks.length ∧ target < cfg.basicBlocks.length := by
  unfold following at h
  split at h
  · next block hblock =>
      exact ⟨(List.getElem?_eq_some_iff.mp hblock).1,
        hcfg block (List.mem_of_getElem? hblock) target h⟩
  · cases h

/-- The blocks that are marked in a table. -/
def marked (visited : List Bool) : Set Nat := { index | visited[index]? = some true }

theorem marked_set (visited : List Bool) (index : Nat) (hindex : index < visited.length) :
    marked (visited.set index true) = insert index (marked visited) := by
  ext other
  simp only [marked, Set.mem_ofPred_eq, Set.mem_insert_iff, List.getElem?_set]
  by_cases heq : index = other
  · simp [heq ▸ hindex, heq]
  · simp [heq, Ne.symm heq]

theorem count_set_true {visited : List Bool} {index : Nat} (h : visited[index]? = some false) :
    (visited.set index true).count false + 1 = visited.count false := by
  obtain ⟨hindex, hvalue⟩ := List.getElem?_eq_some_iff.mp h
  have hpos : 0 < visited.count false := List.count_pos_iff.mpr (hvalue ▸ List.getElem_mem hindex)
  rw [List.count_set hindex]
  simp only [hvalue, BEq.rfl, if_true]
  simp
  omega

variable {cfg : CfgMethod}

/-- The outcome of a part of the sort: it explores a work list. -/
def Sorts (cfg : CfgMethod) (state : List Bool × List CfgBlockIndex)
    (work : List Nat) (outcome : Option (List Bool × List CfgBlockIndex)) :
    Prop :=
  ∃ visited' left, outcome = some (visited', state.2 ++ left.map cfg.blockIndex) ∧
    visited'.length = state.1.length ∧
    visited'.count false ≤ state.1.count false ∧
    Explore cfg.following (marked state.1) work left (marked visited')

/-- A loop over a work list explores it if every visit of an unmarked block
explores this block. -/
theorem sorts_foldlM
    {visit : List Bool → List CfgBlockIndex → Nat → Option (List Bool × List CfgBlockIndex)}
    {blocks fuel : Nat}
    (hvisit : ∀ visited topoSorted index, visited.length = blocks →
      visited.count false ≤ fuel → visited[index]? = some false →
      Sorts cfg (visited, topoSorted) [index] (visit visited topoSorted index))
    (work : List Nat) (state : List Bool × List CfgBlockIndex)
    (hlength : state.1.length = blocks) (hfuel : state.1.count false ≤ fuel)
    (hwork : ∀ index ∈ work, index < blocks) :
    Sorts cfg state work (work.foldlM (visitUnlessMarked visit) state) := by
  induction work generalizing state with
  | nil => exact ⟨state.1, [], by simp, rfl, le_rfl, .nil⟩
  | cons index work ih =>
    have hindex : index < state.1.length := hlength ▸ hwork index List.mem_cons_self
    have hrest : ∀ index ∈ work, index < blocks := fun index h =>
      hwork index (List.mem_cons_of_mem _ h)
    rw [List.foldlM_cons]
    cases hmark : state.1[index] with
    | true =>
      have hmark' : state.1[index]? = some true := by simp [hindex, hmark]
      have hskip : visitUnlessMarked visit state index = some state := by
        simp [visitUnlessMarked, hmark']
      obtain ⟨visited', left, heq, hlength', hcount, hexplore⟩ := ih state hlength hfuel hrest
      rw [hskip]
      exact ⟨visited', left, heq, hlength', hcount, .skip hmark' hexplore⟩
    | false =>
      have hmark' : state.1[index]? = some false := by simp [hindex, hmark]
      have henter : visitUnlessMarked visit state index = visit state.1 state.2 index := by
        simp [visitUnlessMarked, hmark']
      obtain ⟨middle, below, heq, hlength', hcount, hexplore⟩ :=
        hvisit state.1 state.2 index hlength hfuel hmark'
      obtain ⟨visited', left, heq', hlength'', hcount', hexplore'⟩ :=
        ih (middle, state.2 ++ below.map cfg.blockIndex)
          (hlength'.trans hlength) (hcount.trans hfuel) hrest
      rw [henter, heq, Option.bind_eq_bind, Option.bind_some]
      refine ⟨visited', below ++ left, ?_, hlength''.trans hlength', hcount'.trans hcount, ?_⟩
      · rw [heq', List.map_append, List.append_assoc]
      · cases hexplore with
        | skip hseen _ => 
          exact absurd (hmark'.symm.trans hseen) (by simp)
        | visit hseen hbelow hnil =>
          cases hnil
          rw [List.append_assoc]
          exact .visit hseen hbelow hexplore'

theorem sorts_topologicalSortImpl (hcfg : cfg.TargetsInRange) (fuel : Nat) :
    ∀ visited topoSorted index, visited.length = cfg.basicBlocks.length →
      visited.count false ≤ fuel → visited[index]? = some false →
      Sorts cfg (visited, topoSorted) [index]
        (cfg.topologicalSortImpl fuel visited topoSorted index) := by
  induction fuel with
  | zero =>
    intro visited topoSorted index _ hfuel hmark
    have hcount := count_set_true hmark
    omega
  | succ fuel ih =>
    intro visited topoSorted index hlength hfuel hmark
    have hcount := count_set_true hmark
    have hindex : index < visited.length := (List.getElem?_eq_some_iff.mp hmark).1
    obtain ⟨block, hblock⟩ : ∃ block, cfg.basicBlocks[index]? = some block :=
      ⟨_, List.getElem?_eq_getElem (hlength ▸ hindex)⟩
    obtain ⟨visited', below, heq, hlength', hcount', hexplore⟩ :=
      sorts_foldlM ih block.successor.targets
        (visited.set index true, topoSorted) (by simpa using hlength)
        (by simp only; omega) (by
          intro target htarget
          rw [← following_of_getElem? hblock] at htarget
          exact (lt_of_mem_following hcfg htarget).2)
    refine ⟨visited', below ++ [index], ?_, by simpa using hlength',
      hcount'.trans (by simp only; omega), ?_⟩
    · rw [Successor.targets] at heq
      simp [topologicalSortImpl, hmark, hblock, heq]
    · refine .visit ?_ ?_ .nil
      · intro hseen
        exact absurd (hmark.symm.trans hseen) (by simp)
      · rw [← marked_set visited index hindex, following_of_getElem? hblock]
        exact hexplore

/-- What is known about the order of the visits. -/
structure IsOrder (cfg : CfgMethod) (order : List Nat) : Prop where
  nodup : order.Nodup
  mem_iff : ∀ index, index ∈ order ↔ index < cfg.basicBlocks.length
  head : order.head? = some 0
  /-- The source of an edge comes first unless there is a way back. -/
  sorted : ∀ source target, Edge cfg.following source target → target ≠ 0 →
    ¬ Reaches cfg.following target source → List.Sublist [source, target] order

theorem exists_order (hcfg : cfg.TargetsInRange) (hblocks : cfg.basicBlocks ≠ []) :
    ∃ order, cfg.getTopologicalSort = some (order.map cfg.blockIndex) ∧ cfg.IsOrder order := by
  have hpos : 0 < cfg.basicBlocks.length := List.length_pos_of_ne_nil hblocks
  have hwork : ∀ index, index ∈ List.range' 1 (cfg.basicBlocks.length - 1) ↔
      index ≠ 0 ∧ index < cfg.basicBlocks.length := by
    intro index
    rw [List.mem_range'_1]
    omega
  obtain ⟨visited', left, heq, hlength, -, hexplore⟩ :=
    sorts_foldlM (sorts_topologicalSortImpl hcfg cfg.basicBlocks.length)
      (List.range' 1 (cfg.basicBlocks.length - 1))
      ((List.replicate cfg.basicBlocks.length false).set 0 true, [])
      (by simp) (by
        refine (List.count_le_length).trans ?_
        simp) (fun index h => ((hwork index).mp h).2)
  have hfirst : marked ((List.replicate cfg.basicBlocks.length false).set 0 true) = {0} := by
    rw [marked_set _ _ (by simpa using hpos)]
    ext index
    simp [marked, List.getElem?_replicate]
  rw [hfirst] at hexplore
  have hmem : ∀ index, index ∈ left ↔ index ≠ 0 ∧ index < cfg.basicBlocks.length := by
    intro index
    constructor
    · intro h
      refine ⟨fun hzero => hexplore.not_mem_seen index h hzero, ?_⟩
      obtain ⟨root, hroot, hreach⟩ := hexplore.reaches index h
      cases hreach with
      | refl => exact ((hwork index).mp hroot).2
      | tail _ hedge => exact (lt_of_mem_following hcfg hedge).2
    · intro h
      have hmarked := hexplore.work_marked index ((hwork index).mpr h)
      rw [hexplore.mem_marked_iff] at hmarked
      exact hmarked.resolve_left h.1
  refine ⟨0 :: left.reverse, ?_, ?_, ?_, rfl, ?_⟩
  · simp only [getTopologicalSort, hpos.ne', if_false, heq]
    simp
  · rw [List.nodup_cons, List.mem_reverse, List.nodup_reverse, hmem]
    exact ⟨fun h => h.1 rfl, hexplore.nodup⟩
  · intro index
    rw [List.mem_cons, List.mem_reverse, hmem]
    constructor
    · rintro (rfl | h)
      · exact hpos
      · exact h.2
    · intro h
      by_cases hzero : index = 0
      · exact .inl hzero
      · exact .inr ⟨hzero, h⟩
  · intro source target hedge htarget hback
    obtain ⟨hsource, htarget'⟩ := lt_of_mem_following hcfg hedge
    by_cases hzero : source = 0
    · subst hzero
      refine List.Sublist.cons_cons 0 (List.singleton_sublist.mpr ?_)
      exact List.mem_reverse.mpr ((hmem target).mpr ⟨htarget, htarget'⟩)
    · have horder := hexplore.left_order source ((hmem source).mpr ⟨hzero, hsource⟩) target hedge
      have hsub := (horder.resolve_left htarget).resolve_right hback
      exact (hsub.reverse).trans (List.sublist_cons_self _ _)

theorem getTopologicalSort_isOrder (hcfg : cfg.TargetsInRange) (hblocks : cfg.basicBlocks ≠ []) :
    ∃ sorted, cfg.getTopologicalSort = some sorted ∧ cfg.IsOrder (sorted.map (·.blockIndex)) := by
  obtain ⟨order, heq, horder⟩ := exists_order hcfg hblocks
  refine ⟨order.map cfg.blockIndex, heq, ?_⟩
  rw [List.map_map]
  simpa [blockIndex, Function.comp_def] using horder

/-- Without cycles and without edges into the first block, the sort lists every
block once, the first one at the front, and the source of every edge before its
target. -/
theorem getTopologicalSort_of_acyclic (cfg : CfgMethod) (hcfg : cfg.TargetsInRange)
    (hacyclic : ∀ index, ¬ Relation.TransGen (Edge cfg.following) index index)
    (hfirst : ∀ source, ¬ Edge cfg.following source 0) :
    ∃ order, cfg.getTopologicalSort = some (order.map cfg.blockIndex) ∧
      order.Nodup ∧ (∀ index, index ∈ order ↔ index < cfg.basicBlocks.length) ∧
      (cfg.basicBlocks ≠ [] → order.head? = some 0) ∧
      ∀ source target, Edge cfg.following source target → List.Sublist [source, target] order := by
  by_cases hblocks : cfg.basicBlocks = []
  · refine ⟨[], by simp [getTopologicalSort, hblocks], List.nodup_nil, by simp [hblocks],
      fun hne => absurd hblocks hne, ?_⟩
    intro source target hedge
    have hsource := (lt_of_mem_following hcfg hedge).1
    rw [hblocks] at hsource
    exact absurd hsource (Nat.not_lt_zero source)
  · obtain ⟨order, heq, horder⟩ := exists_order hcfg hblocks
    refine ⟨order, heq, horder.nodup, horder.mem_iff, fun _ => horder.head, ?_⟩
    intro source target hedge
    have htarget : target ≠ 0 := by
      rintro rfl
      exact hfirst source hedge
    -- a way back would close a cycle with the edge
    have hback : ¬ Reaches cfg.following target source := fun hreach =>
      hacyclic source (.head' hedge hreach)
    exact horder.sorted source target hedge htarget hback

namespace Witness

/-- Two blocks, of which the first one jumps to the second one. -/
def oneEdge : CfgMethod :=
  { CfgMethod.new 0 "m" 0 [] [] [] with
    basicBlocks := [⟨[], .goto ⟨0, 1⟩⟩, ⟨[], .ret⟩] }

theorem oneEdge_targetsInRange : oneEdge.TargetsInRange := by
  simp [TargetsInRange, oneEdge, Successor.targets, Successor.getFollowing]

theorem oneEdge_getTopologicalSort :
    ∃ order, oneEdge.getTopologicalSort = some (order.map oneEdge.blockIndex) ∧
      List.Sublist [0, 1] order := by
  have hedge : ∀ source target, Edge oneEdge.following source target ↔ source = 0 ∧ target = 1 := by
    intro source target
    rcases source with _ | _ | source <;>
      simp [Edge, following, oneEdge, Successor.targets, Successor.getFollowing]
  have hacyclic : ∀ index, ¬ Relation.TransGen (Edge oneEdge.following) index index := by
    intro index hcycle
    have hlt : ∀ target, Relation.TransGen (Edge oneEdge.following) index target →
        index < target := by
      intro target hpath
      induction hpath with
      | single h =>
        obtain ⟨rfl, rfl⟩ := (hedge _ _).mp h
        exact Nat.zero_lt_one
      | tail _ h ih =>
        obtain ⟨rfl, rfl⟩ := (hedge _ _).mp h
        exact absurd ih (Nat.not_lt_zero index)
    exact Nat.lt_irrefl index (hlt index hcycle)
  have hfirst : ∀ source, ¬ Edge oneEdge.following source 0 := by
    intro source h
    exact absurd ((hedge source 0).mp h).2 (by decide)
  obtain ⟨order, heq, -, -, -, hsorted⟩ :=
    getTopologicalSort_of_acyclic oneEdge oneEdge_targetsInRange hacyclic hfirst
  exact ⟨order, heq, hsorted 0 1 ((hedge 0 1).mpr ⟨rfl, rfl⟩)⟩

end Witness

end CfgMethod

end Prusti.Cfg

/-
The check for loops: blocks are removed from a queue of blocks without incoming
edges.  A method in which this removes every block has no cycles.
-/
import Prusti.Cfg.TopologicalSort
import Mathlib.Data.List.Range
import Mathlib.Data.Set.Finite.Basic

namespace Prusti.Cfg

open Prusti.Vir Prusti.Lib

namespace CfgMethod

/-- Count one more edge into a block. -/
def countEdge (inDegree : List Nat) (target : Nat) : Option (List Nat) :=
  inDegree[target]?.map fun degree => inDegree.set target (degree + 1)

/-- How many edges lead into each block. -/
def inDegrees (method : CfgMethod) : Option (List Nat) :=
  (method.basicBlocks.flatMap (·.successor.targets)).foldlM countEdge
    (List.replicate method.basicBlocks.length 0)

/-- Remove one edge, and enqueue its target when it was the last one.  The degree
must not underflow. -/
def removeEdge (state : List Nat × List Nat) (target : Nat) : Option (List Nat × List Nat) := do
  let degree ← state.1[target]?
  if degree = 0 then none
  else some (state.1.set target (degree - 1), if degree = 1 then state.2 ++ [target] else state.2)

/-- The number of blocks that leave the queue, where the fuel bounds it. -/
def countVisited (method : CfgMethod) : Nat → List Nat × List Nat → Nat → Option Nat
  | _, (_, []), visitedCount => some visitedCount
  | 0, (_, _ :: _), _ => none
  | fuel + 1, (inDegree, currIndex :: queue), visitedCount => do
    let currBlock ← method.basicBlocks[currIndex]?
    let state ← currBlock.successor.targets.foldlM removeEdge (inDegree, queue)
    method.countVisited fuel state (visitedCount + 1)

def hasLoops (method : CfgMethod) : Option Bool := do
  let blocks := method.basicBlocks.length
  let inDegree ← method.inDegrees
  let queue := (List.range blocks).filter fun index => inDegree[index]? == some 0
  let visitedCount ← method.countVisited blocks (inDegree, queue) 0
  some (visitedCount != blocks)

/-- If every element of a finite set has a predecessor in it, there is a cycle. -/
theorem exists_cycle_of_forall_pred {α : Type*} {r : α → α → Prop} {nodes : Set α}
    (hfinite : nodes.Finite) (hne : nodes.Nonempty)
    (h : ∀ target ∈ nodes, ∃ source ∈ nodes, r source target) :
    ∃ node, Relation.TransGen r node node := by
  by_contra hacyclic
  have : Finite nodes := hfinite
  have : IsTrans nodes fun a b => Relation.TransGen r a.1 b.1 :=
    ⟨fun _ _ _ => Relation.TransGen.trans⟩
  have : Std.Irrefl fun a b : nodes => Relation.TransGen r a.1 b.1 :=
    ⟨fun a hcycle => hacyclic ⟨a.1, hcycle⟩⟩
  have hwf := Finite.wellFounded_of_trans_of_irrefl fun a b : nodes => Relation.TransGen r a.1 b.1
  obtain ⟨start, hstart⟩ := hne
  obtain ⟨⟨target, htarget⟩, -, hmin⟩ := hwf.has_min Set.univ ⟨⟨start, hstart⟩, trivial⟩
  obtain ⟨source, hsource, hedge⟩ := h target htarget
  exact hmin ⟨source, hsource⟩ trivial (.single hedge)

variable {cfg : CfgMethod}

/-- The table of the degrees counts the occurrences in a list. -/
def Counts (cfg : CfgMethod) (inDegree edges : List Nat) : Prop :=
  ∀ index, inDegree[index]? =
    if index < cfg.basicBlocks.length then some (edges.count index) else none

theorem Counts.perm {inDegree edges edges' : List Nat}
    (h : Counts cfg inDegree edges) (hperm : List.Perm edges edges') :
    Counts cfg inDegree edges' := by
  intro index
  rw [h index, hperm.count_eq]

theorem counts_replicate : Counts cfg (List.replicate cfg.basicBlocks.length 0) [] := by
  intro index
  simp [List.getElem?_replicate]

theorem Counts.set {inDegree edges : List Nat} (h : Counts cfg inDegree edges)
    {target degree : Nat} (htarget : target < cfg.basicBlocks.length)
    {edges' : List Nat} (hdegree : edges'.count target = degree)
    (hother : ∀ index, index ≠ target → edges'.count index = edges.count index) :
    Counts cfg (inDegree.set target degree) edges' := by
  intro index
  have hbound : target < inDegree.length := by
    have hsome := h target
    rw [if_pos htarget] at hsome
    exact (List.getElem?_eq_some_iff.mp hsome).1
  rw [List.getElem?_set]
  by_cases heq : target = index
  · subst heq
    rw [if_pos rfl, if_pos hbound, if_pos htarget, hdegree]
  · rw [if_neg heq, h index, hother index (Ne.symm heq)]

/-- Counting edges one after the other. -/
theorem exists_foldlM_countEdge (edges : List Nat)
    (hedges : ∀ target ∈ edges, target < cfg.basicBlocks.length)
    (inDegree counted : List Nat) (h : Counts cfg inDegree counted) :
    ∃ inDegree', edges.foldlM countEdge inDegree = some inDegree' ∧
      Counts cfg inDegree' (edges ++ counted) := by
  induction edges generalizing inDegree counted with
  | nil => exact ⟨inDegree, rfl, h⟩
  | cons target edges ih =>
    have htarget := hedges target List.mem_cons_self
    have hnext : Counts cfg (inDegree.set target (counted.count target + 1))
        (target :: counted) := by
      apply h.set htarget
      · rw [List.count_cons_self]
      · intro index hne
        rw [List.count_cons_of_ne hne.symm]
    obtain ⟨inDegree', heq, hcounts⟩ :=
      ih (fun other hother => hedges other (List.mem_cons_of_mem _ hother)) _ _ hnext
    refine ⟨inDegree', ?_, hcounts.perm List.perm_middle⟩
    rw [List.foldlM_cons, countEdge, h target, if_pos htarget]
    exact heq

/-- The edges that leave the given blocks. -/
def edgesFrom (cfg : CfgMethod) (sources : List Nat) : List Nat := sources.flatMap cfg.following

theorem edgesFrom_range :
    cfg.edgesFrom (List.range cfg.basicBlocks.length) =
      cfg.basicBlocks.flatMap (·.successor.targets) := by
  rw [edgesFrom, List.flatMap_def, List.flatMap_def]
  congr 1
  apply List.ext_getElem
  · simp
  · intro index hleft hright
    have hindex : index < cfg.basicBlocks.length := by simpa using hright
    simp only [List.getElem_map, List.getElem_range]
    exact following_of_getElem? (List.getElem?_eq_getElem hindex)

/-- The state of the search: the blocks that left the queue, the queue, the other
blocks, and the edges of the current block that are still to be removed. -/
structure Searching (cfg : CfgMethod) (popped rest pending inDegree queue : List Nat) : Prop where
  perm : (popped ++ rest).Perm (List.range cfg.basicBlocks.length)
  counts : Counts cfg inDegree (pending ++ cfg.edgesFrom rest)
  nodup : (popped ++ queue).Nodup
  mem_iff : ∀ index, index ∈ popped ++ queue ↔
    index < cfg.basicBlocks.length ∧ index ∉ pending ++ cfg.edgesFrom rest
  accessible : ∀ index ∈ popped ++ queue, Acc (Edge cfg.following) index

namespace Searching

variable {popped rest pending inDegree queue : List Nat} {target : Nat}

theorem mem_rest_iff (h : Searching cfg popped rest pending inDegree queue) (index : Nat) :
    index ∈ popped ∨ index ∈ rest ↔ index < cfg.basicBlocks.length := by
  rw [← List.mem_append, h.perm.mem_iff, List.mem_range]

/-- A block without edges from the rest can be reached from blocks that left the
queue only. -/
theorem acc_of_not_mem (hrange : cfg.TargetsInRange)
    (h : Searching cfg popped rest pending inDegree queue)
    (htarget : target ∉ cfg.edgesFrom rest) : Acc (Edge cfg.following) target := by
  constructor
  intro source hedge
  have hsource := (lt_of_mem_following hrange hedge).1
  rcases (h.mem_rest_iff source).mpr hsource with hpopped | hrest
  · exact h.accessible source (List.mem_append_left _ hpopped)
  · exact absurd (List.mem_flatMap.mpr ⟨source, hrest, hedge⟩) htarget

/-- Remove one edge of the current block. -/
theorem exists_removeEdge (hrange : cfg.TargetsInRange)
    (h : Searching cfg popped rest (target :: pending) inDegree queue)
    (htarget : target < cfg.basicBlocks.length) :
    ∃ inDegree' queue', removeEdge (inDegree, queue) target = some (inDegree', queue') ∧
      Searching cfg popped rest pending inDegree' queue' := by
  have hcount : (target :: pending ++ cfg.edgesFrom rest).count target =
      (pending ++ cfg.edgesFrom rest).count target + 1 := by
    rw [List.cons_append, List.count_cons_self]
  have hdegree : inDegree[target]? = some ((pending ++ cfg.edgesFrom rest).count target + 1) := by
    rw [h.counts target, if_pos htarget, hcount]
  have hcounts : Counts cfg (inDegree.set target ((pending ++ cfg.edgesFrom rest).count target))
      (pending ++ cfg.edgesFrom rest) := by
    apply h.counts.set htarget rfl
    intro index hne
    rw [List.cons_append, List.count_cons_of_ne hne.symm]
  have hnew : target ∉ popped ++ queue := by
    intro hmem
    exact ((h.mem_iff target).mp hmem).2 List.mem_cons_self
  have hremove : removeEdge (inDegree, queue) target =
      some (inDegree.set target ((pending ++ cfg.edgesFrom rest).count target),
        if target ∈ pending ++ cfg.edgesFrom rest then queue else queue ++ [target]) := by
    have hlast : (pending ++ cfg.edgesFrom rest).count target + 1 = 1 ↔
        ¬ target ∈ pending ++ cfg.edgesFrom rest := by
      rw [Nat.add_eq_right, List.count_eq_zero]
    rw [removeEdge, hdegree]
    simp only [Option.bind_eq_bind, Option.bind_some, Nat.add_sub_cancel, hlast, ite_not]
    rw [if_neg (Nat.succ_ne_zero _)]
  refine ⟨_, _, hremove, ?_⟩
  by_cases hmem : target ∈ pending ++ cfg.edgesFrom rest
  · rw [if_pos hmem]
    refine ⟨h.perm, hcounts, h.nodup, ?_, h.accessible⟩
    intro index
    rw [h.mem_iff, List.cons_append, List.mem_cons]
    constructor
    · rintro ⟨hindex, hnot⟩
      exact ⟨hindex, fun hmem => hnot (.inr hmem)⟩
    · rintro ⟨hindex, hnot⟩
      refine ⟨hindex, ?_⟩
      rintro (rfl | hmem')
      · exact hnot hmem
      · exact hnot hmem'
  · rw [if_neg hmem]
    refine ⟨h.perm, hcounts, ?_, ?_, ?_⟩
    · rw [← List.append_assoc, List.nodup_append']
      refine ⟨h.nodup, List.nodup_singleton _, ?_⟩
      intro index hindex hsingle
      exact hnew (List.mem_singleton.mp hsingle ▸ hindex)
    · intro index
      rw [← List.append_assoc, List.mem_append, h.mem_iff, List.cons_append,
        List.mem_cons, List.mem_singleton]
      by_cases heq : index = target
      · subst heq
        exact ⟨fun _ => ⟨htarget, hmem⟩, fun _ => .inr rfl⟩
      · simp [heq]
    · intro index hindex
      rw [← List.append_assoc, List.mem_append] at hindex
      rcases hindex with hindex | hsingle
      · exact h.accessible index hindex
      · rw [List.mem_singleton.mp hsingle]
        apply h.acc_of_not_mem hrange
        intro hedge
        exact hmem (List.mem_append_right _ hedge)

/-- Remove all edges of the current block. -/
theorem exists_foldlM_removeEdge (hrange : cfg.TargetsInRange)
    (htargets : ∀ target ∈ pending, target < cfg.basicBlocks.length)
    (h : Searching cfg popped rest pending inDegree queue) :
    ∃ inDegree' queue', pending.foldlM removeEdge (inDegree, queue) = some (inDegree', queue') ∧
      Searching cfg popped rest [] inDegree' queue' := by
  induction pending generalizing inDegree queue with
  | nil => exact ⟨inDegree, queue, rfl, h⟩
  | cons target pending ih =>
    obtain ⟨inDegree', queue', heq, h'⟩ :=
      h.exists_removeEdge hrange (htargets target List.mem_cons_self)
    rw [List.foldlM_cons, heq]
    exact ih (fun other hother => htargets other (List.mem_cons_of_mem _ hother)) h'

/-- Take a block from the queue. -/
theorem pop {currIndex : Nat} (h : Searching cfg popped rest [] inDegree (currIndex :: queue)) :
    currIndex ∈ rest ∧ Searching cfg (popped ++ [currIndex]) (rest.erase currIndex)
      (cfg.following currIndex) inDegree queue := by
  have hcurr : currIndex ∈ popped ++ currIndex :: queue :=
    List.mem_append_right _ List.mem_cons_self
  have hrest : currIndex ∈ rest := by
    rcases (h.mem_rest_iff currIndex).mpr ((h.mem_iff currIndex).mp hcurr).1 with
      hpopped | hrest
    · exact absurd List.mem_cons_self ((List.nodup_append'.mp h.nodup).2.2 hpopped)
    · exact hrest
  have hperm := List.perm_cons_erase hrest
  have hedges : (cfg.edgesFrom rest).Perm
      (cfg.following currIndex ++ cfg.edgesFrom (rest.erase currIndex)) :=
    hperm.flatMap_right cfg.following
  have hmove : popped ++ currIndex :: queue = (popped ++ [currIndex]) ++ queue := by
    rw [List.append_assoc, List.singleton_append]
  refine ⟨hrest, ?_, ?_, ?_, ?_, ?_⟩
  · rw [List.append_assoc, List.singleton_append]
    exact (hperm.append_left popped).symm.trans h.perm
  · exact h.counts.perm hedges
  · exact hmove ▸ h.nodup
  · intro index
    rw [← hmove, h.mem_iff, List.nil_append, hedges.mem_iff]
  · exact hmove ▸ h.accessible

/-- The blocks that leave the queue are counted. -/
theorem exists_countVisited (hrange : cfg.TargetsInRange) (fuel : Nat)
    (h : Searching cfg popped rest [] inDegree queue) (hfuel : rest.length ≤ fuel) :
    ∃ popped' rest' inDegree' : List Nat,
      cfg.countVisited fuel (inDegree, queue) popped.length = some popped'.length ∧
        Searching cfg popped' rest' [] inDegree' [] := by
  induction fuel generalizing popped rest inDegree queue with
  | zero =>
    cases queue with
    | nil => exact ⟨popped, rest, inDegree, by rw [countVisited], h⟩
    | cons currIndex queue =>
      have hpos := List.length_pos_of_mem h.pop.1
      omega
  | succ fuel ih =>
    cases queue with
    | nil => exact ⟨popped, rest, inDegree, by rw [countVisited], h⟩
    | cons currIndex queue =>
      obtain ⟨hrest, hpop⟩ := h.pop
      have hcurr := (h.mem_rest_iff currIndex).mp (.inr hrest)
      obtain ⟨inDegree', queue', heq, h'⟩ := hpop.exists_foldlM_removeEdge hrange
        (fun target htarget => (lt_of_mem_following hrange htarget).2)
      have hlength := List.length_erase_of_mem hrest
      have hpos := List.length_pos_of_mem hrest
      have hnext := ih h' (by omega)
      rw [List.length_append, List.length_singleton] at hnext
      have hblock := List.getElem?_eq_getElem hcurr
      rw [following_of_getElem? hblock] at heq
      simp only [countVisited, hblock, Option.bind_eq_bind, Option.bind_some, heq]
      exact hnext

/-- When the queue is empty, every block that is left has an edge from one that is
left. -/
theorem exists_pred (h : Searching cfg popped rest [] inDegree []) {target : Nat}
    (htarget : target ∈ rest) :
    ∃ source ∈ rest, Edge cfg.following source target := by
  have hlt := (h.mem_rest_iff target).mp (.inr htarget)
  have hnot : target ∉ popped := by
    have hnodup := h.perm.symm.nodup List.nodup_range
    exact fun hpopped => (List.nodup_append'.mp hnodup).2.2 hpopped htarget
  have hiff := h.mem_iff target
  rw [List.append_nil, List.nil_append] at hiff
  have hmem : target ∈ cfg.edgesFrom rest := by
    by_contra hno
    exact hnot (hiff.mpr ⟨hlt, hno⟩)
  exact List.mem_flatMap.mp hmem

end Searching

/-- The check always has an answer, and it tells whether blocks are left. -/
theorem exists_hasLoops (hrange : cfg.TargetsInRange) :
    ∃ popped rest inDegree : List Nat, cfg.hasLoops = some (!rest.isEmpty) ∧
      Searching cfg popped rest [] inDegree [] := by
  have hedges : ∀ target ∈ cfg.edgesFrom (List.range cfg.basicBlocks.length),
      target < cfg.basicBlocks.length := by
    intro target htarget
    obtain ⟨source, -, hedge⟩ := List.mem_flatMap.mp htarget
    exact (lt_of_mem_following hrange hedge).2
  obtain ⟨inDegree, hinDegree, hcounts⟩ := exists_foldlM_countEdge _ hedges _ _ counts_replicate
  rw [List.append_nil] at hcounts
  have hqueue : ∀ index, index ∈ (List.range cfg.basicBlocks.length).filter
        (fun index => inDegree[index]? == some 0) ↔
      index < cfg.basicBlocks.length ∧
        index ∉ cfg.edgesFrom (List.range cfg.basicBlocks.length) := by
    intro index
    rw [List.mem_filter, List.mem_range, hcounts index]
    refine and_congr_right fun hindex => ?_
    rw [if_pos hindex, beq_iff_eq, Option.some.injEq, List.count_eq_zero]
  have hstart : Searching cfg [] (List.range cfg.basicBlocks.length) [] inDegree
      ((List.range cfg.basicBlocks.length).filter fun index => inDegree[index]? == some 0) := by
    refine ⟨List.Perm.refl _, hcounts, List.nodup_range.filter _, hqueue, ?_⟩
    intro index hindex
    constructor
    intro source hedge
    have hsource := List.mem_range.mpr (lt_of_mem_following hrange hedge).1
    exact absurd (List.mem_flatMap.mpr ⟨source, hsource, hedge⟩) ((hqueue index).mp hindex).2
  obtain ⟨popped, rest, inDegree', hcount, hend⟩ :=
    hstart.exists_countVisited hrange cfg.basicBlocks.length (by rw [List.length_range])
  refine ⟨popped, rest, inDegree', ?_, hend⟩
  have hlength := hend.perm.length_eq
  rw [List.length_append, List.length_range] at hlength
  have hleft : (popped.length != cfg.basicBlocks.length) = !rest.isEmpty := by
    cases rest with
    | nil => simp_all
    | cons => simp_all; omega
  rw [hasLoops, inDegrees, ← edgesFrom_range]
  simp only [hinDegree, Option.bind_eq_bind, Option.bind_some]
  rw [List.length_nil] at hcount
  simp only [hcount, Option.bind_some, hleft]

/-- Without loops there is no infinite way back. -/
theorem wellFounded_of_hasLoops (hrange : cfg.TargetsInRange)
    (hloops : cfg.hasLoops = some false) : WellFounded (Edge cfg.following) := by
  obtain ⟨popped, rest, inDegree, heq, hend⟩ := exists_hasLoops hrange
  have hrest : rest = [] := by
    rw [hloops, Option.some.injEq] at heq
    simpa using heq.symm
  refine ⟨fun index => ?_⟩
  by_cases hindex : index < cfg.basicBlocks.length
  · rcases (hend.mem_rest_iff index).mpr hindex with hpopped | hmem
    · exact hend.accessible index (List.mem_append_left _ hpopped)
    · rw [hrest] at hmem
      cases hmem
  · constructor
    intro source hedge
    exact absurd (lt_of_mem_following hrange hedge).2 hindex

/-- The check finds loops exactly if the graph of the blocks has a cycle.  That there is
an answer says that no degree underflows. -/
theorem hasLoops_iff_cycle (hrange : cfg.TargetsInRange) :
    ∃ loops, cfg.hasLoops = some loops ∧
      (loops = true ↔ ∃ index, Relation.TransGen (Edge cfg.following) index index) := by
  obtain ⟨popped, rest, inDegree, heq, hend⟩ := exists_hasLoops hrange
  refine ⟨!rest.isEmpty, heq, ?_⟩
  constructor
  · intro hloops
    have hne : rest ≠ [] := by simpa using hloops
    obtain ⟨target, htarget⟩ := List.exists_mem_of_ne_nil rest hne
    have hfinite : { index | index ∈ rest }.Finite := rest.finite_toSet
    exact exists_cycle_of_forall_pred hfinite ⟨target, htarget⟩ fun other hother =>
      hend.exists_pred hother
  · rintro ⟨index, hcycle⟩
    by_contra hno
    have hfalse : cfg.hasLoops = some false := by
      rw [heq, Bool.eq_false_of_not_eq_true hno]
    exact (wellFounded_of_hasLoops hrange hfalse).transGen.irrefl.irrefl index hcycle

/-- A method without loops has no way back along an edge. -/
theorem not_reaches_of_edge (hrange : cfg.TargetsInRange)
    (hloops : cfg.hasLoops = some false) {source target : Nat}
    (hedge : Edge cfg.following source target) :
    ¬ Reaches cfg.following target source := by
  intro hback
  have hcycle : Relation.TransGen (Edge cfg.following) source source := .head' hedge hback
  exact (wellFounded_of_hasLoops hrange hloops).transGen.irrefl.irrefl source hcycle

namespace Witness

/-- A block that nothing jumps to, and two blocks with two edges one way and one back. -/
def twoEdges : CfgMethod :=
  { CfgMethod.new 0 "m" 0 [] [] [] with
    basicBlocks := [
      ⟨[], .gotoSwitch [(.const (.bool true) .default, ⟨0, 1⟩)] ⟨0, 1⟩⟩, ⟨[], .goto ⟨0, 0⟩⟩,
      ⟨[], .ret⟩] }

theorem twoEdges_hasLoops :
    ∃ loops, twoEdges.hasLoops = some loops ∧
      (loops = true ↔ ∃ index, Relation.TransGen (Edge twoEdges.following) index index) :=
  hasLoops_iff_cycle (by
    unfold TargetsInRange
    simp [twoEdges, Successor.targets, Successor.getFollowing])

end Witness

end CfgMethod

end Prusti.Cfg

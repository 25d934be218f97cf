/-
The executions of a method whose blocks are merged: every new block is a chain of
old blocks, and it can be entered at its head only.
-/
import Prusti.Optimizations.CfgCleaner
import Prusti.Lib.Lists

namespace Prusti.Optimizations

open Prusti.Vir Prusti.Cfg Prusti.Lib

variable {source target index : Nat}

/-- The jump from a block to its target is followed: it is the only edge into the
target. -/
def Follows (method : CfgMethod) (source target : Nat) : Prop :=
  ∃ block index sources, method.basicBlocks[source]? = some block ∧
    block.successor = .goto index ∧ index.blockIndex = target ∧
    (predecessors method).get? target = some sources ∧ sources.length = 1

/-- A block that is merged from the blocks on the way from `head` to `last`. -/
inductive Merged (method : CfgMethod) (head : Nat) : Nat → CfgBlock → Prop where
  | start {block : CfgBlock} (hblock : method.basicBlocks[head]? = some block) :
      Merged method head head block
  | follow {last : Nat} {block targetBlock : CfgBlock} {target : CfgBlockIndex}
      (hmerged : Merged method head last block)
      (hgoto : block.successor = .goto target)
      (htarget : method.basicBlocks[target.blockIndex]? = some targetBlock) :
      Merged method head target.blockIndex ⟨block.stmts ++ targetBlock.stmts, targetBlock.successor⟩

/-- There is no jump left to follow. -/
def Finished (method : CfgMethod) (block : CfgBlock) : Prop :=
  ∀ target sources, block.successor = .goto target →
    (predecessors method).get? target.blockIndex = some sources → sources.length ≠ 1

section Merged

variable {method : CfgMethod} {head last : Nat} {block : CfgBlock}

theorem Follows.edge (h : Follows method source target) : Edge method.following source target := by
  obtain ⟨block, index, -, hblock, hgoto, rfl, -⟩ := h
  rw [Edge, CfgMethod.following_of_getElem? hblock, hgoto]
  exact List.mem_cons_self

/-- The only edge into a block is the one that is followed. -/
theorem Follows.eq_source {source' : Nat} (h : Follows method source target)
    (hedge : Edge method.following source' target) :
    source' = source := by
  obtain ⟨-, -, sources, -, -, -, hget, hsingle⟩ := id h
  exact eq_of_single hget hsingle hedge h.edge

section

variable (h : Merged method head last block)

include h

theorem Merged.exists_last :
    ∃ lastBlock, method.basicBlocks[last]? = some lastBlock ∧
      block.successor = lastBlock.successor := by
  cases h with
  | start hblock => exact ⟨block, hblock, rfl⟩
  | follow _ _ htarget => exact ⟨_, htarget, rfl⟩

theorem Merged.following_eq : method.following last = block.successor.targets := by
  obtain ⟨lastBlock, hblock, heq⟩ := h.exists_last
  rw [CfgMethod.following_of_getElem? hblock, heq]

theorem Merged.reaches : Reaches method.following head last := by
  induction h with
  | start => exact .refl
  | follow hmerged hgoto _ ih =>
    apply ih.tail
    rw [Edge, hmerged.following_eq, hgoto]
    exact List.mem_cons_self

/-- A merged block runs as the blocks it is merged from. -/
theorem Merged.runs_iff (trace : List Event) (final : Final) :
    block.Runs method.Executes trace final ↔ method.Executes head trace final := by
  induction h with
  | start hblock =>
    rw [method.executes_iff]
    constructor
    · intro hruns
      exact ⟨_, hblock, hruns⟩
    · rintro ⟨other, hother, hruns⟩
      cases hblock.symm.trans hother
      exact hruns
  | follow _ hgoto htarget ih =>
    rw [CfgBlock.runs_append_iff method hgoto htarget]
    exact ih

end

end Merged

/-- The order of the traversal. -/
structure Traversal (method : CfgMethod) (order : List Nat) : Prop where
  nodup : order.Nodup
  mem_iff : ∀ index, index ∈ order ↔ index < method.basicBlocks.length
  sorted : ∀ source target, Edge method.following source target →
    List.Sublist [source, target] order

/-- The blocks with a new index are taken out of the map of blocks.  These are the
blocks that are visited and the blocks that are merged with them. -/
structure Indexed (method : CfgMethod) (visited : List Nat)
    (blocks : HashMap Nat CfgBlock) (newIndices : HashMap Nat Nat) : Prop where
  get? : ∀ index, blocks.get? index =
    if newIndices.contains index then none else method.basicBlocks[index]?
  contains : ∀ index ∈ visited, newIndices.contains index = true
  followed : ∀ target, newIndices.contains target = true →
    target ∈ visited ∨ ∃ source, newIndices.contains source = true ∧ Follows method source target

/-- How many blocks have no new index yet. -/
def unindexed (method : CfgMethod) (newIndices : HashMap Nat Nat) : Nat :=
  (List.range method.basicBlocks.length).countP fun index =>
    !newIndices.contains index

section Indexed

variable {method : CfgMethod} {visited rest : List Nat}
  {blocks : HashMap Nat CfgBlock} {newIndices : HashMap Nat Nat}

theorem contains_insert_iff (newIndices : HashMap Nat Nat) (index newIndex other : Nat) :
    (newIndices.insert index newIndex).contains other = true ↔
      index = other ∨ newIndices.contains other = true := by
  simp only [HashMap.contains_iff, HashMap.get?_insert]
  by_cases heq : index = other
  · simp [heq]
  · simp [heq]

theorem unindexed_insert (hindex : index < method.basicBlocks.length)
    (hnew : newIndices.contains index = false) (newIndex : Nat) :
    unindexed method (newIndices.insert index newIndex) + 1 = unindexed method newIndices := by
  have hperm := List.perm_cons_erase (List.mem_range.mpr hindex)
  have hnot : index ∉ (List.range method.basicBlocks.length).erase index :=
    List.nodup_range.not_mem_erase
  rw [unindexed, unindexed, hperm.countP_eq, hperm.countP_eq, List.countP_cons,
    List.countP_cons, hnew]
  have hself : (newIndices.insert index newIndex).contains index = true :=
    (contains_insert_iff newIndices index newIndex index).mpr (.inl rfl)
  have hother : ((List.range method.basicBlocks.length).erase index).countP
        (fun other => !(newIndices.insert index newIndex).contains other) =
      ((List.range method.basicBlocks.length).erase index).countP
        (fun other => !newIndices.contains other) := by
    refine List.countP_congr fun other hmem => ?_
    have hne : index ≠ other := by
      rintro rfl
      exact hnot hmem
    have hiff := contains_insert_iff newIndices index newIndex other
    simp only [hne, false_or] at hiff
    simp only [Bool.not_eq_true', ← Bool.not_eq_true, hiff]
  rw [hother, hself]
  rfl

/-- What a block without a new index jumps to has no new index either. -/
theorem Indexed.contains_target (h : Indexed method visited blocks newIndices)
    (horder : Traversal method (visited ++ rest)) (hsource : newIndices.contains source = false)
    (hedge : Edge method.following source target) :
    newIndices.contains target = false := by
  rw [← Bool.not_eq_true] at hsource ⊢
  intro hcontains
  rcases h.followed target hcontains with hvisited | ⟨source', hsource', hfollows⟩
  · -- the source stands before its target, so it is visited as well
    obtain ⟨front, back, rfl⟩ := List.append_of_mem hvisited
    have hpair := horder.sorted source target hedge
    have hnodup := horder.nodup
    rw [List.append_assoc, List.cons_append] at hpair hnodup
    have hfront := mem_of_pair_sublist hnodup hpair
    exact hsource (h.contains source (List.mem_append_left _ hfront))
  · rw [hfollows.eq_source hedge] at hsource
    exact hsource hsource'

theorem Traversal.ne_of_edge {order : List Nat} (h : Traversal method order)
    (hedge : Edge method.following source target) :
    source ≠ target := by
  rintro rfl
  have hlt := idxOf_lt_of_pair_sublist h.nodup (h.sorted _ _ hedge)
  exact Nat.lt_irrefl _ hlt

/-- A block gets its new index: it is visited, or the jump to it is followed. -/
theorem Indexed.insert (h : Indexed method visited blocks newIndices) (newIndex : Nat)
    {visited' : List Nat} (hvisited : ∀ other ∈ visited', other ∈ visited ∨ other = index)
    (hkeep : ∀ other ∈ visited, other ∈ visited')
    (hindex : index ∈ visited' ∨
      ∃ source, newIndices.contains source = true ∧ Follows method source index) :
    Indexed method visited' (blocks.erase index) (newIndices.insert index newIndex) := by
  have hcontains := contains_insert_iff newIndices index newIndex
  constructor
  · intro other
    rw [HashMap.get?_erase, h.get? other]
    by_cases heq : index = other
    · rw [if_pos (by simpa using heq), if_pos ((hcontains other).mpr (.inl heq))]
    · rw [if_neg (by simpa using heq)]
      have hiff := hcontains other
      simp only [heq, false_or] at hiff
      simp only [hiff]
  · intro other hother
    rw [hcontains]
    rcases hvisited other hother with hother | rfl
    · exact .inr (h.contains other hother)
    · exact .inl rfl
  · have hlift : ∀ target, (∃ source, newIndices.contains source = true ∧
          Follows method source target) →
        ∃ source, (newIndices.insert index newIndex).contains source = true ∧
          Follows method source target := by
      rintro target ⟨source, hsource, hfollows⟩
      exact ⟨source, (hcontains source).mpr (.inr hsource), hfollows⟩
    intro target htarget
    rcases (hcontains target).mp htarget with rfl | htarget
    · exact hindex.imp id (hlift index)
    · exact (h.followed target htarget).imp (hkeep target) (hlift target)

/-- Following the jumps: the new index goes to blocks whose only incoming edge is
followed, until there is no jump left. -/
theorem exists_mergeGotos (hrange : method.TargetsInRange)
    (horder : Traversal method (visited ++ rest)) (newIndex fuel : Nat)
    {head last : Nat} {block : CfgBlock} (h : Indexed method visited blocks newIndices)
    (hmerged : Merged method head last block) (hlast : newIndices.contains last = true)
    (hfresh : ∀ target, Edge method.following last target → newIndices.contains target = false)
    (hfuel : unindexed method newIndices < fuel) :
    ∃ block' blocks' newIndices' last',
      mergeGotos (predecessors method) newIndex fuel block blocks newIndices =
        some (block', blocks', newIndices') ∧
      Indexed method visited blocks' newIndices' ∧
      Merged method head last' block' ∧ Finished method block' ∧
      ∀ index, newIndices'.get? index = newIndices.get? index ∨
        newIndices.get? index = none ∧ newIndices'.get? index = some newIndex ∧
          ∃ source, Follows method source index := by
  induction fuel generalizing last block blocks newIndices with
  | zero => omega
  | succ fuel ih =>
    rw [mergeGotos]
    have hstop : Finished method block →
        ∃ block' blocks' newIndices' last',
          some (block, blocks, newIndices) = some (block', blocks', newIndices') ∧
          Indexed method visited blocks' newIndices' ∧
          Merged method head last' block' ∧ Finished method block' ∧
          ∀ index, newIndices'.get? index = newIndices.get? index ∨
            newIndices.get? index = none ∧ newIndices'.get? index = some newIndex ∧
              ∃ source, Follows method source index := by
      intro hfinished
      exact ⟨block, blocks, newIndices, last, rfl, h, hmerged, hfinished, fun index => .inl rfl⟩
    split
    next target hgoto =>
      have hedge : Edge method.following last target.blockIndex := by
        rw [Edge, hmerged.following_eq, hgoto]
        exact List.mem_cons_self
      obtain ⟨sources, hsources, -⟩ := get?_predecessors hedge
      rw [hsources, Option.bind_eq_bind, Option.bind_some]
      by_cases hsingle : sources.length = 1
      · have hbound := (CfgMethod.lt_of_mem_following hrange hedge).2
        have hnew := hfresh _ hedge
        have hblock := List.getElem?_eq_getElem hbound
        obtain ⟨lastBlock, hlastBlock, hsuccessor⟩ := hmerged.exists_last
        have hfollows : Follows method last target.blockIndex :=
          ⟨lastBlock, target, sources, hlastBlock, hsuccessor.symm.trans hgoto, rfl,
            hsources, hsingle⟩
        have hremaining := unindexed_insert hbound hnew newIndex
        have hcontains := contains_insert_iff newIndices target.blockIndex newIndex
        have hfresh' : ∀ other, Edge method.following target.blockIndex other →
            (newIndices.insert target.blockIndex newIndex).contains other = false := by
          intro other hother
          rw [← Bool.not_eq_true, hcontains]
          rintro (heq | hmem)
          · exact horder.ne_of_edge hother heq
          · rw [h.contains_target horder hnew hother] at hmem
            cases hmem
        obtain ⟨block', blocks', newIndices', last', heq, hindexed, hmerged', hfinished,
          hnewIndices⟩ := ih
            (h.insert newIndex (fun _ hother => .inl hother) (fun _ hother => hother)
              (.inr ⟨last, hlast, hfollows⟩))
            (hmerged.follow hgoto hblock) ((hcontains _).mpr (.inl rfl)) hfresh'
            (by omega)
        refine ⟨block', blocks', newIndices', last', ?_, hindexed, hmerged', hfinished, ?_⟩
        · rw [if_pos hsingle, insertIndex, hnew, h.get?, hnew, hblock]
          exact heq
        · intro index
          have hget := HashMap.get?_insert newIndices target.blockIndex index newIndex
          have hnone := (HashMap.contains_eq_false_iff _ _).mp hnew
          by_cases hindex : target.blockIndex = index
          · subst hindex
            rw [if_pos BEq.rfl] at hget
            refine .inr ⟨hnone, ?_, last, hfollows⟩
            rcases hnewIndices target.blockIndex with hold | ⟨hold, -⟩
            · rw [hold, hget]
            · rw [hget] at hold
              cases hold
          · rw [if_neg (by simpa using hindex)] at hget
            rw [← hget]
            exact hnewIndices index
      · rw [if_neg hsingle]
        apply hstop
        intro other sources' hother hsources'
        cases hgoto.symm.trans hother
        cases hsources.symm.trans hsources'
        exact hsingle
    next hgoto =>
      apply hstop
      intro target sources htarget
      exact absurd htarget (hgoto target)

end Indexed

/-- The state of the traversal, where `heads` lists the first blocks of the new
blocks. -/
structure Cleaning (method : CfgMethod) (visited heads : List Nat) (state : CfgCleaner) : Prop where
  indexed : Indexed method visited state.basicBlocks state.newIndices
  merged : List.Forall₂ (fun head block =>
    (∃ last, Merged method head last block) ∧ Finished method block) heads state.newBasicBlocks
  heads_index : ∀ index head, heads[index]? = some head → state.newIndices.get? head = some index
  index_heads : ∀ block index, state.newIndices.get? block = some index →
    index < heads.length ∧ (heads[index]? = some block ∨ ∃ source, Follows method source block)
  start : heads.head? = visited.head?

section Cleaning

variable {method : CfgMethod} {visited heads rest : List Nat} {state : CfgCleaner}

/-- A block that is merged with a block that is visited before. -/
theorem Cleaning.skip (h : Cleaning method visited heads state)
    (hcontains : state.newIndices.contains index = true) :
    Cleaning method (visited ++ [index]) heads state := by
  refine ⟨⟨h.indexed.get?, ?_, ?_⟩, h.merged, h.heads_index, h.index_heads, ?_⟩
  · intro other hother
    rcases List.mem_append.mp hother with hother | hother
    · exact h.indexed.contains other hother
    · rw [List.mem_singleton.mp hother]
      exact hcontains
  · intro target htarget
    exact (h.indexed.followed target htarget).imp (List.mem_append_left _) id
  · obtain ⟨newIndex, hindex⟩ := (HashMap.contains_iff _ _).mp hcontains
    have hpos := (h.index_heads _ _ hindex).1
    have hstart := h.start
    cases visited with
    | nil =>
      rw [List.head?_nil, List.head?_eq_none_iff] at hstart
      rw [hstart] at hpos
      exact absurd hpos (Nat.not_lt_zero _)
    | cons first others => exact hstart

/-- The new indices after one more new block: the old ones stay, and the others are
those of the head and of the blocks that are merged with it. -/
theorem get?_of_merged {newIndices newIndices' : HashMap Nat Nat} {newIndex : Nat}
    (hnone : newIndices.get? index = none)
    (h : ∀ other, newIndices'.get? other = (newIndices.insert index newIndex).get? other ∨
      (newIndices.insert index newIndex).get? other = none ∧
        newIndices'.get? other = some newIndex ∧ ∃ source, Follows method source other) :
    newIndices'.get? index = some newIndex ∧
      (∀ other value, newIndices.get? other = some value → newIndices'.get? other = some value) ∧
      ∀ other value, newIndices'.get? other = some value →
        newIndices.get? other = some value ∨
        value = newIndex ∧ (index = other ∨ ∃ source, Follows method source other) := by
  simp only [HashMap.get?_insert] at h
  refine ⟨?_, ?_, ?_⟩
  · rcases h index with hsame | ⟨hcontra, -⟩
    · rw [hsame, if_pos BEq.rfl]
    · rw [if_pos BEq.rfl] at hcontra
      cases hcontra
  · intro other value hvalue
    have hne : index ≠ other := by
      rintro rfl
      rw [hnone] at hvalue
      cases hvalue
    have hother := h other
    rw [if_neg (by simpa using hne), hvalue] at hother
    rcases hother with hsame | ⟨hcontra, -⟩
    · exact hsame
    · cases hcontra
  · intro other value hvalue
    by_cases heq : index = other
    · have hother := h other
      rw [if_pos (by simpa using heq), hvalue] at hother
      rcases hother with hsame | ⟨hcontra, -⟩
      · exact .inr ⟨Option.some.inj hsame, .inl heq⟩
      · cases hcontra
    · have hother := h other
      rw [if_neg (by simpa using heq), hvalue] at hother
      rcases hother with hsame | ⟨-, hsome, hfollows⟩
      · exact .inl hsame.symm
      · exact .inr ⟨Option.some.inj hsome, .inr hfollows⟩

/-- One more new block. -/
theorem Cleaning.push (h : Cleaning method visited heads state) {last : Nat} {block : CfgBlock}
    {blocks : HashMap Nat CfgBlock} {newIndices : HashMap Nat Nat}
    (hnone : state.newIndices.get? index = none)
    (hindexed : Indexed method (visited ++ [index]) blocks newIndices)
    (hmerged : Merged method index last block) (hfinished : Finished method block)
    (hnewIndices : ∀ other, newIndices.get? other =
        (state.newIndices.insert index state.newBasicBlocks.length).get? other ∨
      (state.newIndices.insert index state.newBasicBlocks.length).get? other = none ∧
        newIndices.get? other = some state.newBasicBlocks.length ∧
          ∃ source, Follows method source other) :
    Cleaning method (visited ++ [index]) (heads ++ [index])
      ⟨state.newBasicBlocks ++ [block], blocks, newIndices⟩ := by
  obtain ⟨hself, hold, hnew⟩ := get?_of_merged hnone hnewIndices
  have hlength := h.merged.length_eq
  refine ⟨hindexed, ?_, ?_, ?_, ?_⟩
  · exact List.rel_append h.merged (.cons ⟨⟨last, hmerged⟩, hfinished⟩ .nil)
  · intro position head hhead
    rcases Nat.lt_or_ge position heads.length with hlt | hge
    · rw [List.getElem?_append_left hlt] at hhead
      exact hold head position (h.heads_index position head hhead)
    · rw [List.getElem?_append_right hge, List.getElem?_singleton] at hhead
      split at hhead
      · next hzero =>
          cases hhead
          rw [hself, ← hlength]
          congr 1
          omega
      · cases hhead
  · intro other position hposition
    rw [List.length_append, List.length_singleton]
    rcases hnew other position hposition with hsame | ⟨rfl, hor⟩
    · obtain ⟨hlt, hor⟩ := h.index_heads other position hsame
      refine ⟨Nat.lt_succ_of_lt hlt, hor.imp (fun hhead => ?_) id⟩
      rw [List.getElem?_append_left hlt]
      exact hhead
    · rw [← hlength]
      refine ⟨Nat.lt_succ_self _, hor.imp ?_ id⟩
      rintro rfl
      exact List.getElem?_concat_length
  · have hstart := h.start
    cases visited with
    | nil =>
      rw [List.head?_nil, List.head?_eq_none_iff] at hstart
      rw [hstart]
    | cons first others =>
      rw [List.head?_append, hstart]
      rfl

/-- The state of the traversal after one more block. -/
theorem Cleaning.exists_cleanBlock (hrange : method.TargetsInRange)
    (h : Cleaning method visited heads state) (index : CfgBlockIndex)
    (horder : Traversal method (visited ++ index.blockIndex :: rest)) :
    ∃ heads' state', cleanBlock method state index = some state' ∧
      Cleaning method (visited ++ [index.blockIndex]) heads' state' := by
  have hbound := (horder.mem_iff index.blockIndex).mp (List.mem_append_right _ List.mem_cons_self)
  have hblock := List.getElem?_eq_getElem hbound
  have hget := h.indexed.get? index.blockIndex
  rw [cleanBlock]
  by_cases hcontains : state.newIndices.contains index.blockIndex = true
  · rw [if_pos hcontains] at hget
    rw [hget]
    exact ⟨heads, state, rfl, h.skip hcontains⟩
  · rw [if_neg hcontains, hblock] at hget
    rw [hget]
    rw [Bool.not_eq_true] at hcontains
    have hinsert := contains_insert_iff state.newIndices index.blockIndex
      state.newBasicBlocks.length
    have hfresh : ∀ target, Edge method.following index.blockIndex target →
        (state.newIndices.insert index.blockIndex
          state.newBasicBlocks.length).contains target = false := by
      intro target hedge
      rw [← Bool.not_eq_true, hinsert]
      rintro (heq | hmem)
      · exact horder.ne_of_edge hedge heq
      · rw [h.indexed.contains_target horder hcontains hedge] at hmem
        cases hmem
    have hremaining := unindexed_insert hbound hcontains state.newBasicBlocks.length
    have hle : unindexed method state.newIndices ≤ method.basicBlocks.length := by
      rw [unindexed]
      exact List.countP_le_length.trans (by rw [List.length_range])
    have hindexed := h.indexed.insert state.newBasicBlocks.length
      (fun other hother => (List.mem_append.mp hother).imp id List.mem_singleton.mp)
      (fun other hother => List.mem_append_left _ hother)
      (.inl (List.mem_append_right visited (List.mem_singleton.mpr
        (rfl : index.blockIndex = index.blockIndex))))
    rw [← List.singleton_append, ← List.append_assoc] at horder
    obtain ⟨block', blocks', newIndices', last', heq, hindexed', hmerged', hfinished,
      hnewIndices⟩ := exists_mergeGotos hrange horder state.newBasicBlocks.length
        method.basicBlocks.length hindexed (.start hblock) ((hinsert _).mpr (.inl rfl))
        hfresh (by omega)
    refine ⟨_, _, ?_, h.push ((HashMap.contains_eq_false_iff _ _).mp hcontains) hindexed'
      hmerged' hfinished hnewIndices⟩
    simp only [insertIndex, hcontains, Bool.false_eq_true, if_false,
      Option.bind_eq_bind, Option.bind_some, heq]

/-- The state at the end of the traversal. -/
theorem Cleaning.exists_foldlM (hrange : method.TargetsInRange)
    (order : List CfgBlockIndex) (h : Cleaning method visited heads state)
    (horder : Traversal method (visited ++ order.map (·.blockIndex))) :
    ∃ heads' state', order.foldlM (cleanBlock method) state = some state' ∧
      Cleaning method (visited ++ order.map (·.blockIndex)) heads' state' := by
  induction order generalizing visited heads state with
  | nil =>
    rw [List.map_nil, List.append_nil]
    exact ⟨heads, state, rfl, h⟩
  | cons index order ih =>
    rw [List.map_cons] at horder
    obtain ⟨heads', state', heq, h'⟩ := h.exists_cleanBlock hrange index horder
    rw [← List.singleton_append, ← List.append_assoc] at horder
    have hrest := ih h' horder
    rw [List.append_assoc, List.singleton_append] at hrest
    rw [List.foldlM_cons, heq]
    exact hrest

/-- A new block jumps to the heads of new blocks. -/
theorem Cleaning.target_heads (hrange : method.TargetsInRange)
    (h : Cleaning method visited heads state)
    (hvisited : ∀ index, index < method.basicBlocks.length → index ∈ visited) {head last : Nat}
    {block : CfgBlock} (hmerged : Merged method head last block) (hfinished : Finished method block)
    (htarget : target ∈ block.successor.targets) :
    ∃ index, state.newIndices.get? target = some index ∧ heads[index]? = some target := by
  have hedge : Edge method.following last target := by
    rw [Edge, hmerged.following_eq]
    exact htarget
  have hbound := (CfgMethod.lt_of_mem_following hrange hedge).2
  have hcontains := h.indexed.contains target (hvisited target hbound)
  obtain ⟨index, hindex⟩ := (HashMap.contains_iff _ _).mp hcontains
  refine ⟨index, hindex, ?_⟩
  rcases (h.index_heads target index hindex).2 with hhead | ⟨source, hfollows⟩
  · exact hhead
  · -- the jump to the target would have been followed
    have hsource := hfollows.eq_source hedge
    obtain ⟨sourceBlock, jump, sources, hblock, hgoto, rfl, hget, hsingle⟩ := hfollows
    obtain ⟨lastBlock, hlast, hsuccessor⟩ := hmerged.exists_last
    rw [hsource] at hlast
    cases hblock.symm.trans hlast
    exact absurd hsingle (hfinished jump sources (hsuccessor.trans hgoto) hget)

end Cleaning

section Renumber

variable {newIndices : HashMap Nat Nat}

/-- The new positions of the blocks. -/
def newPosition (newIndices : HashMap Nat Nat) (index : Nat) : Nat := (newIndices.get? index).getD 0

theorem renumberTarget_eq {target : CfgBlockIndex}
    (h : ∃ index, newIndices.get? target.blockIndex = some index) :
    renumberTarget newIndices target =
      some { target with blockIndex := newPosition newIndices target.blockIndex } := by
  obtain ⟨index, hindex⟩ := h
  rw [renumberTarget, newPosition, hindex]
  rfl

theorem renumberSuccessor_eq {successor : Successor}
    (h : ∀ target ∈ successor.targets, ∃ index, newIndices.get? target = some index) :
    renumberSuccessor newIndices successor =
      some (successor.renumber (newPosition newIndices)) := by
  cases successor with
  | undefined | ret => rfl
  | goto target =>
    have htarget := h target.blockIndex List.mem_cons_self
    rw [renumberSuccessor, renumberTarget_eq htarget]
    rfl
  | gotoSwitch guardedTargets defaultTarget =>
    have hdefault := h defaultTarget.blockIndex
      (List.mem_map_of_mem (List.mem_append_right _ List.mem_cons_self))
    have hguarded : guardedTargets.mapM (fun guarded =>
        (renumberTarget newIndices guarded.2).map fun target => (guarded.1, target)) =
        some (guardedTargets.map fun guarded => (guarded.1, { guarded.2 with
          blockIndex := newPosition newIndices guarded.2.blockIndex })) := by
      apply mapM_eq_map
      intro guarded hguarded
      have htarget := h guarded.2.blockIndex (List.mem_map_of_mem
        (List.mem_append_left _ (List.mem_map_of_mem (f := Prod.snd) hguarded)))
      rw [renumberTarget_eq htarget]
      rfl
    rw [renumberSuccessor, renumberTarget_eq hdefault]
    simp only [Option.bind_eq_bind, Option.bind_some, hguarded]
    rfl

/-- The new blocks, with their targets renumbered. -/
def renumberedBlock (newIndices : HashMap Nat Nat) (block : CfgBlock) : CfgBlock :=
  ⟨block.stmts, block.successor.renumber (newPosition newIndices)⟩

end Renumber

section Executions

variable {method : CfgMethod} {order heads : List Nat} {state : CfgCleaner}

/-- The blocks on a path come later and later. -/
theorem Traversal.idxOf_le (h : Traversal method order)
    (hreach : Reaches method.following source target) :
    order.idxOf source ≤ order.idxOf target := by
  induction hreach with
  | refl => exact le_rfl
  | tail _ hedge ih => exact ih.trans (idxOf_lt_of_pair_sublist h.nodup (h.sorted _ _ hedge)).le

/-- The executions from a new block are those from its head. -/
theorem Cleaning.executes_iff (hrange : method.TargetsInRange)
    (horder : Traversal method order) (h : Cleaning method order heads state)
    {result : CfgMethod} (hresult : result.basicBlocks =
      state.newBasicBlocks.map (renumberedBlock state.newIndices))
    (later index head : Nat) (hlater : order.length - order.idxOf head = later)
    (hhead : heads[index]? = some head) (trace : List Event) (final : Final) :
    result.Executes index trace final ↔ method.Executes head trace final := by
  induction later using Nat.strong_induction_on generalizing index head trace final with
  | _ later ih =>
    obtain ⟨block, hblock, ⟨last, hmerged⟩, hfinished⟩ := forall₂_getElem? h.merged hhead
    have hnew : result.basicBlocks[index]? = some (renumberedBlock state.newIndices block) := by
      rw [hresult, List.getElem?_map, hblock]
      rfl
    have hruns : result.Executes index trace final ↔ block.Runs (fun target => result.Executes
          (newPosition state.newIndices target)) trace final := by
      rw [result.executes_iff, hnew]
      simp only [Option.some.injEq, exists_eq_left', renumberedBlock]
      exact CfgBlock.runs_renumber_iff _
    rw [hruns, ← hmerged.runs_iff]
    apply CfgBlock.runs_congr
    intro target htarget trace final
    have hedge : Edge method.following last target := by
      rw [Edge, hmerged.following_eq]
      exact htarget
    obtain ⟨position, hposition, hhead'⟩ := h.target_heads hrange
      (fun index hindex => (horder.mem_iff index).mpr hindex) hmerged hfinished htarget
    rw [newPosition, hposition, Option.getD_some]
    have hbefore := horder.idxOf_le hmerged.reaches
    have hlt := idxOf_lt_of_pair_sublist horder.nodup (horder.sorted _ _ hedge)
    have htargetBound : order.idxOf target < order.length := by
      rw [List.idxOf_lt_length_iff, horder.mem_iff]
      exact (CfgMethod.lt_of_mem_following hrange hedge).2
    exact ih _ (by omega) position target rfl hhead' trace final

/-- The new blocks jump to new blocks. -/
theorem Cleaning.targetsInRange (hrange : method.TargetsInRange)
    (horder : Traversal method order) (h : Cleaning method order heads state)
    {result : CfgMethod} (hresult : result.basicBlocks =
      state.newBasicBlocks.map (renumberedBlock state.newIndices)) :
    result.TargetsInRange := by
  intro block hblock target htarget
  rw [hresult] at hblock ⊢
  obtain ⟨merged, hmem, rfl⟩ := List.mem_map.mp hblock
  obtain ⟨head, -, ⟨last, hmerged⟩, hfinished⟩ := exists_of_forall₂_mem_right h.merged hmem
  rw [renumberedBlock, Successor.targets_renumber] at htarget
  obtain ⟨old, hold, rfl⟩ := List.mem_map.mp htarget
  obtain ⟨index, hindex, hhead⟩ := h.target_heads hrange
    (fun index hindex => (horder.mem_iff index).mpr hindex) hmerged hfinished hold
  rw [newPosition, hindex, List.length_map, ← h.merged.length_eq]
  exact (List.getElem?_eq_some_iff.mp hhead).1

section

variable (hloops : method.hasLoops = some false) (hrange : method.TargetsInRange)
  (hstart : ∀ block ∈ method.basicBlocks, 0 ∉ block.successor.targets)

include hloops hrange hstart

/-- A method without loops is traversed in the order of its edges. -/
theorem exists_traversal (hblocks : method.basicBlocks ≠ []) :
    ∃ sorted rest, method.getTopologicalSort = some sorted ∧
      sorted.map (·.blockIndex) = 0 :: rest ∧
      Traversal method (sorted.map (·.blockIndex)) := by
  obtain ⟨sorted, hsorted, horder⟩ := CfgMethod.getTopologicalSort_isOrder hrange hblocks
  obtain ⟨rest, hrest⟩ := List.head?_eq_some_iff.mp horder.head
  refine ⟨sorted, rest, hsorted, hrest, horder.nodup, horder.mem_iff, ?_⟩
  intro source target hedge
  apply horder.sorted source target hedge
  · rintro rfl
    have hsource := (CfgMethod.lt_of_mem_following hrange hedge).1
    have hblock := List.getElem?_eq_getElem hsource
    rw [Edge, CfgMethod.following_of_getElem? hblock] at hedge
    exact hstart _ (List.getElem_mem hsource) hedge
  · exact CfgMethod.not_reaches_of_edge hrange hloops hedge

theorem exists_cleanCfg (hblocks : method.basicBlocks ≠ []) :
    ∃ result, cleanCfg method = some result ∧ result.TargetsInRange ∧
      ∀ trace final, result.Executes 0 trace final ↔ method.Executes 0 trace final := by
  obtain ⟨sorted, rest, hsorted, hrest, horder⟩ := exists_traversal hloops hrange hstart hblocks
  have hinitial : Cleaning method [] [] ⟨[], enumerateBlocks method, HashMap.empty⟩ := by
    refine ⟨⟨get?_enumerateBlocks method, ?_, ?_⟩, .nil, ?_, ?_, rfl⟩
    · intro index hindex
      cases hindex
    · intro target htarget
      cases htarget
    · intro index head hhead
      cases hhead
    · intro block index hindex
      cases hindex
  obtain ⟨heads, state, hstate, hcleaning⟩ := hinitial.exists_foldlM hrange sorted horder
  rw [List.nil_append] at hcleaning
  have hblock : ∀ block ∈ state.newBasicBlocks,
      renumberBlock state.newIndices block = some (renumberedBlock state.newIndices block) := by
    intro block hmem
    obtain ⟨head, -, ⟨last, hmerged⟩, hfinished⟩ :=
      exists_of_forall₂_mem_right hcleaning.merged hmem
    rw [renumberBlock, renumberSuccessor_eq]
    · rfl
    · intro target htarget
      obtain ⟨index, hindex, -⟩ := hcleaning.target_heads hrange
        (fun index hindex => (horder.mem_iff index).mpr hindex) hmerged hfinished htarget
      exact ⟨index, hindex⟩
  refine ⟨{ method with basicBlocks :=
    state.newBasicBlocks.map (renumberedBlock state.newIndices) }, ?_,
    hcleaning.targetsInRange hrange horder rfl, ?_⟩
  · obtain ⟨first, others, rfl, hfirst, -⟩ := List.map_eq_cons_iff.mp hrest
    rw [cleanCfg]
    simp only [hsorted, Option.bind_eq_bind, Option.bind_some, List.head?_cons, hfirst,
      if_true, hstate, mapM_eq_map hblock]
  · have hhead := hcleaning.start
    rw [hrest, List.head?_cons, List.head?_eq_getElem?] at hhead
    intro trace final
    exact hcleaning.executes_iff hrange horder rfl _ 0 0 rfl hhead trace final

end

/-- Cleaning a method without loops keeps its executions, as long as there is a start
block. -/
theorem cleanCfg_preserves_executions (method : CfgMethod)
    (hloops : method.hasLoops = some false) (hrange : method.TargetsInRange)
    (hstart : ∀ block ∈ method.basicBlocks, 0 ∉ block.successor.targets) :
    (∃ result, cleanCfg method = some result ∧ result.TargetsInRange ∧
      ∀ trace final, result.Executes 0 trace final ↔
        method.Executes 0 trace final) ↔ method.basicBlocks ≠ [] := by
  constructor
  · rintro ⟨result, hresult, -⟩ hempty
    rw [cleanCfg, CfgMethod.getTopologicalSort, hempty] at hresult
    cases hresult
  · exact exists_cleanCfg hloops hrange hstart

end Executions

namespace Witness

/-- A branch over an empty block, and a block that is never reached. -/
def branching : CfgMethod :=
  { CfgMethod.new 0 "m" 0 [] [] [] with
    basicBlocks := [
      ⟨[.comment "start"], .goto ⟨0, 2⟩⟩, ⟨[.comment "never"], .goto ⟨0, 4⟩⟩,
      ⟨[], .gotoSwitch [(Expr.ofBool true, ⟨0, 4⟩)] ⟨0, 3⟩⟩, ⟨[], .goto ⟨0, 4⟩⟩,
      ⟨[.comment "end"], .ret⟩] }

theorem cleanCfg_preserves_executions_branching :
    branching.hasLoops = some false ∧
      ((∃ result, cleanCfg branching = some result ∧ result.TargetsInRange ∧
        ∀ trace final, result.Executes 0 trace final ↔
          branching.Executes 0 trace final) ↔ branching.basicBlocks ≠ []) := by
  have hrange : branching.TargetsInRange := by
    unfold CfgMethod.TargetsInRange
    decide
  exact ⟨by decide, cleanCfg_preserves_executions branching (by decide) hrange (by decide)⟩

/-- Without a start block the pass panics. -/
theorem cleanCfg_empty :
    (CfgMethod.new 0 "m" 0 [] [] []).hasLoops = some false ∧
      (CfgMethod.new 0 "m" 0 [] [] []).TargetsInRange ∧
      (∀ block ∈ (CfgMethod.new 0 "m" 0 [] [] []).basicBlocks, 0 ∉ block.successor.targets) ∧
      cleanCfg (CfgMethod.new 0 "m" 0 [] [] []) = none := by
  refine ⟨rfl, ?_, ?_, rfl⟩
  · intro block hblock
    cases hblock
  · intro block hblock
    cases hblock

end Witness

end Prusti.Optimizations

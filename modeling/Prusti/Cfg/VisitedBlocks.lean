/-
The order of the visits and the contexts that are joined.  The invariant of
the pass holds of every graph; that the pass goes through is shown for the
graphs whose reachable part is acyclic and is not entered from unreachable
blocks.
-/
import Prusti.Cfg.VisitorStep
import Prusti.Lib.Lists

namespace Prusti.Cfg

open Prusti.Vir Prusti.Lib Prusti.Lib.Stop

variable {index : Nat} {back order : List Nat}

section

variable {σ ε C A : Type} {cb : CfgReplacer σ ε C A} {chars : CharClass}
  {cfg : CfgMethod}

variable {pass : Pass σ C} {currIndex : Nat} {start : CfgMethod}

/-- The blocks that were visited as reachable ones, in order. -/
def Pass.blocks (pass : Pass σ C) : List Nat := pass.log.map (·.block)

/-- A block and its context at the end of its visit. -/
def Pass.Finished (pass : Pass σ C) (index : Nat) (context : C) : Prop :=
  ∃ visit ∈ pass.log, visit.block = index ∧ visit.final = context

theorem Pass.mem_blocks_of_finished {context : C} (h : pass.Finished index context) :
    index ∈ pass.blocks := by
  obtain ⟨visit, hvisit, rfl, -⟩ := h
  exact List.mem_map_of_mem hvisit

theorem Pass.exists_finished (h : index ∈ pass.blocks) :
    ∃ context, pass.Finished index context := by
  obtain ⟨visit, hvisit, rfl⟩ := List.mem_map.mp h
  exact ⟨visit.final, visit, hvisit, rfl, rfl⟩

/-- The contexts that a visit joined, when the blocks of `done` had been
visited up to and including its own. -/
def Pass.Joins (cfg : CfgMethod) (pass : Pass σ C) (done : List Nat) (visit : Visit C) : Prop :=
  ∃ contexts, List.Forall₂ pass.Finished
      ((cfg.preceding visit.block).filter (· ∈ done)) contexts ∧
    visit.joined = if contexts.isEmpty then none else some contexts

/-- The labels of the statements of a block, by its position. -/
def CfgMethod.labelsAt (cfg : CfgMethod) (index : Nat) : List String :=
  match cfg.basicBlocks[index]? with
  | some block => blockLabels block
  | none => []

/-- What holds when the blocks of `done` have been visited, in this order,
beginning with the graph `start`. -/
structure PassInv (cfg start : CfgMethod) (done : List Nat) (pass : Pass σ C) : Prop where
  length_visited : pass.visited.length = cfg.basicBlocks.length
  length_reachable : pass.reachable.length = cfg.basicBlocks.length
  length_initial : pass.initialPctxt.length = cfg.basicBlocks.length
  length_final : pass.finalPctxt.length = cfg.basicBlocks.length
  nodup : done.Nodup
  visited_iff : ∀ index, pass.visited[index]? = some true ↔ index ∈ done
  reachable_iff : ∀ index, index < cfg.basicBlocks.length →
    (pass.reachable[index]? = some true ↔
      index = 0 ∨ ∃ source ∈ pass.blocks, Edge cfg.following source index)
  final_iff : ∀ index context, InTable pass.finalPctxt index context ↔ pass.Finished index context
  initial : ∀ index ∈ pass.blocks, ∃ context, InTable pass.initialPctxt index context
  blocks_sublist : List.Sublist pass.blocks done
  reaches : ∀ index ∈ pass.blocks, Reaches cfg.following 0 index
  /-- A block is skipped only if it is not marked as reachable by then. -/
  skipped : ∀ index ∈ done, index ∉ pass.blocks →
    index ≠ 0 ∧ ∀ source ∈ pass.blocks, List.Sublist [source, index] done →
      ¬ Edge cfg.following source index
  joins : ∀ visit ∈ pass.log, ∃ front back,
    done = front ++ visit.block :: back ∧ pass.Joins cfg (front ++ [visit.block]) visit
  grown : Grown start pass.newCfg (done.flatMap cfg.labelsAt)

/-- The loop that marks the following blocks as reachable. -/
theorem markFollowing_spec {targets : List Nat} {reachable reachable' : List Bool}
    (h : (targets.foldlM (fun reachable index => setAt reachable index true)
      reachable : Except (Stop ε) (List Bool)) = .ok reachable') :
    reachable'.length = reachable.length ∧
      ∀ index, index < reachable.length → (reachable'[index]? = some true ↔
        reachable[index]? = some true ∨ index ∈ targets) := by
  have hinv := foldlM_inv
    (fun done table => table.length = reachable.length ∧
      ∀ index, index < reachable.length → (table[index]? = some true ↔
        reachable[index]? = some true ∨ index ∈ done))
    targets [] reachable reachable' (by simp) ?_ h
  · exact hinv
  rintro front target - table table' - ⟨hlength, htable⟩ hset
  rw [setAt_eq_ok_iff] at hset
  obtain ⟨hbound, rfl⟩ := hset
  refine ⟨by simpa using hlength, ?_⟩
  intro index hindex
  rw [List.mem_append, List.mem_singleton, ← or_assoc, ← htable index hindex, List.getElem?_set]
  by_cases heq : target = index
  · simp [heq, heq ▸ hbound]
  · simp [heq, Ne.symm heq]

theorem noPanic_markFollowing {targets : List Nat} {reachable : List Bool}
    (h : ∀ target ∈ targets, target < reachable.length) :
    NoPanic (targets.foldlM (fun reachable index => setAt reachable index true)
      reachable : Except (Stop ε) (List Bool)) := by
  refine NoPanic.foldlM (fun _ table => table.length = reachable.length) targets [] reachable rfl ?_
  intro front target back table hsplit hlength
  have hmem : target ∈ targets := by
    rw [List.nil_append] at hsplit
    simp [hsplit]
  refine ⟨noPanic_setAt true (hlength ▸ h target hmem), ?_⟩
  intro table' hset
  rw [setAt_eq_ok_iff] at hset
  rw [hset.2, List.length_set, hlength]

/-- Everything that the visit of a reachable block does. -/
structure Replaced (cfg : CfgMethod) (pass pass' : Pass σ C) (currIndex : Nat)
    (currBlock : CfgBlock) (joined : Option (List C)) (initial final : C) :
    Prop where
  visited_eq : pass'.visited = pass.visited
  length_reachable : pass'.reachable.length = pass.reachable.length
  reachable_iff : ∀ index, index < pass.reachable.length →
    (pass'.reachable[index]? = some true ↔
      pass.reachable[index]? = some true ∨ index ∈ currBlock.successor.targets)
  joined_eq : ∃ contexts, List.Forall₂ (InTable pass.finalPctxt)
    (cfg.visitedPreceding pass.visited currIndex) contexts ∧
    joined = if contexts.isEmpty then none else some contexts
  initial_eq : pass'.initialPctxt = pass.initialPctxt.set currIndex (some initial)
  final_eq : pass'.finalPctxt = pass.finalPctxt.set currIndex (some final)
  log_eq : pass'.log = pass.log ++ [⟨currIndex, joined, final⟩]
  grown : Grown pass.newCfg pass'.newCfg (blockLabels currBlock)

theorem replaceBlock_spec (hcb : cb.Conforms) (hcfg : cfg.WellFormed chars) {pass' : Pass σ C}
    {currBlock : CfgBlock} (hlength : pass.visited.length = cfg.basicBlocks.length)
    (h : replaceBlock cb chars cfg pass currIndex currBlock = .ok pass') :
    ∃ joined initial final, Replaced cfg pass pass' currIndex currBlock joined initial final := by
  simp only [replaceBlock, bind_eq_ok_iff, orPanic_eq_ok_iff, setAt_eq_ok_iff, pure_eq_ok_iff] at h
  obtain ⟨reachable, hreachable, ⟨joined, walk₁⟩, hjoin, _, ⟨-, rfl⟩, walk₂,
    hstmts, walk₃, hsuccessor, block, -, _, -, _, ⟨-, rfl⟩, rfl⟩ := h
  obtain ⟨hlength', hiff⟩ := markFollowing_spec hreachable
  obtain ⟨hgrown, hjoined⟩ := joinIncoming_spec hcb hcfg hlength hjoin
  have hextends := extends_of_replaceStmts hcb hstmts
  rw [zipIdx_flatMap_gatherLabels] at hextends
  have hextends' := (replaceSuccessorAt_spec hcb hsuccessor).1
  have hall := (hgrown.trans (.of_extends hextends)).trans (.of_extends hextends')
  rw [List.nil_append, List.append_nil] at hall
  exact ⟨joined, walk₁.pctxt, walk₃.pctxt, rfl, hlength', hiff, hjoined, rfl, rfl, rfl, hall⟩

theorem noPanic_replaceBlock (hcb : cb.Conforms) (hcfg : cfg.WellFormed chars)
    {currBlock : CfgBlock} (hblock : cfg.basicBlocks[currIndex]? = some currBlock)
    (hvisited : pass.visited.length = cfg.basicBlocks.length)
    (hreachable : pass.reachable.length = cfg.basicBlocks.length)
    (hinitial : pass.initialPctxt.length = cfg.basicBlocks.length)
    (hfinal : pass.finalPctxt.length = cfg.basicBlocks.length)
    (hblocks : cfg.basicBlocks.length ≤ pass.newCfg.basicBlocks.length)
    (hreserved : ∀ label ∈ blockLabels currBlock, label ∈ pass.newCfg.reservedLabels)
    (hfresh : pass.newCfg.FreshAll (blockLabels currBlock))
    (hpreceding : ∀ source ∈ cfg.visitedPreceding pass.visited currIndex,
      ∃ context, InTable pass.finalPctxt source context)
    (hback : ∀ target ∈ currBlock.successor.targets,
      pass.visited[target]? = some true → target = currIndex ∨
        ∃ context, InTable pass.initialPctxt target context) :
    NoPanic (replaceBlock cb chars cfg pass currIndex currBlock) := by
  have hindex : currIndex < cfg.basicBlocks.length := (List.getElem?_eq_some_iff.mp hblock).1
  have htargets : ∀ target ∈ currBlock.successor.targets, target < cfg.basicBlocks.length := by
    intro target htarget
    rw [← CfgMethod.following_of_getElem? hblock] at htarget
    exact (CfgMethod.lt_of_mem_following hcfg.targetsInRange htarget).2
  refine NoPanic.bind (noPanic_markFollowing (hreachable ▸ htargets)) ?_
  intro reachable _
  refine NoPanic.bind (noPanic_joinIncoming hcb hcfg hvisited hblocks hpreceding) ?_
  rintro ⟨joined, walk₁⟩ hjoin
  have hgrown := (joinIncoming_spec hcb hcfg hvisited hjoin).1
  have hindex₁ := hindex.trans_le (hblocks.trans hgrown.length_le)
  refine NoPanic.bind (noPanic_setAt _ (hinitial ▸ hindex)) ?_
  intro initialPctxt hset
  rw [setAt_eq_ok_iff] at hset
  obtain ⟨-, rfl⟩ := hset
  refine NoPanic.bind (noPanic_replaceStmts hcb ?_ hindex₁) ?_
  · rw [zipIdx_flatMap_gatherLabels]
    exact hgrown.freshAll hfresh hreserved
  intro walk₂ hstmts
  have hextends := extends_of_replaceStmts hcb hstmts
  have hindex₂ := hextends.length_eq ▸ hindex₁
  refine NoPanic.bind (noPanic_replaceSuccessorAt hcb hindex₂) ?_
  intro walk₃ hsuccessor
  obtain ⟨-, newBlock, hnewBlock, htargets'⟩ := replaceSuccessorAt_spec hcb hsuccessor
  refine NoPanic.bind (.orPanic ⟨newBlock, hnewBlock⟩) ?_
  intro newBlock' hnewBlock'
  rw [orPanic_eq_ok_iff, hnewBlock, Option.some.injEq] at hnewBlock'
  subst hnewBlock'
  refine NoPanic.bind (noPanic_checkBackEdges ?_) ?_
  · rw [htargets']
    intro target htarget
    refine ⟨hvisited ▸ htargets target htarget, ?_⟩
    intro hmarked
    by_cases heq : target = currIndex
    · exact ⟨walk₁.pctxt, by simp [InTable, heq, hinitial, hindex]⟩
    · obtain ⟨context, hcontext⟩ := (hback target htarget hmarked).resolve_left heq
      refine ⟨context, ?_⟩
      rw [InTable, List.getElem?_set_ne (Ne.symm heq)]
      exact hcontext
  intro _ _
  refine NoPanic.bind (noPanic_setAt _ (hfinal ▸ hindex)) ?_
  intro _ _
  exact .pure _

/-- What one round of the pass can do: it copies a block that is not marked
as reachable, or it replaces one that is. -/
theorem visitBlock_cases (hcb : cb.Conforms) (hcfg : cfg.WellFormed chars) {pass' : Pass σ C}
    (hlength : pass.visited.length = cfg.basicBlocks.length)
    (h : visitBlock cb chars cfg pass currIndex = .ok pass') :
    pass.visited[currIndex]? = some false ∧
    ∃ currBlock, cfg.basicBlocks[currIndex]? = some currBlock ∧
      ((pass.reachable[currIndex]? = some false ∧
        Grown pass.newCfg pass'.newCfg (blockLabels currBlock) ∧
        pass' = { pass with
          newCfg := pass'.newCfg, visited := pass.visited.set currIndex true }) ∨
      (pass.reachable[currIndex]? = some true ∧ ∃ joined initial final,
        Replaced cfg { pass with visited := pass.visited.set currIndex true }
          pass' currIndex currBlock joined initial final)) := by
  simp only [visitBlock, bind_eq_ok_iff, orPanic_eq_ok_iff, assert_eq_ok_iff] at h
  obtain ⟨visitedBefore, hvisited, _, hbefore, currBlock, hblock, isReachable, hreachable, h⟩ := h
  rw [Bool.not_eq_true'] at hbefore
  subst hbefore
  refine ⟨hvisited, currBlock, hblock, ?_⟩
  split at h
  · next htrue =>
      subst htrue
      exact .inr ⟨hreachable, replaceBlock_spec hcb hcfg (by simpa using hlength) h⟩
  · next hfalse =>
      rw [Bool.not_eq_true] at hfalse
      subst hfalse
      simp only [bind_eq_ok_iff, pure_eq_ok_iff] at h
      obtain ⟨newCfg, hcopy, rfl⟩ := h
      exact .inl ⟨hreachable, grown_of_copyBlock hcopy, rfl⟩

theorem CfgMethod.labelsAt_of_getElem? {block : CfgBlock}
    (h : cfg.basicBlocks[index]? = some block) :
    cfg.labelsAt index = blockLabels block := by
  rw [labelsAt, h]

/-- Setting an entry of a table of contexts. -/
theorem inTable_set_iff {table : List (Option C)} {context : C} (hindex : index < table.length)
    (other : Nat) (context' : C) :
    InTable (table.set index (some context)) other context' ↔
      (other = index ∧ context' = context) ∨ (other ≠ index ∧ InTable table other context') := by
  by_cases heq : other = index
  · subst heq
    simp [InTable, hindex, eq_comm]
  · simp [InTable, heq, Ne.symm heq]

/-- A pair in a list with a new last element that is not the second one. -/
theorem pair_sublist_of_append {front : List Nat} {source target last : Nat}
    (htarget : target ≠ last) (h : List.Sublist [source, target] (front ++ [last])) :
    List.Sublist [source, target] front := by
  have hreverse := h.reverse
  simp only [List.reverse_append, List.reverse_cons, List.reverse_nil,
    List.nil_append, List.singleton_append] at hreverse
  cases hreverse with
  | cons _ hrest =>
    have hback := hrest.reverse
    simpa using hback
  | cons_cons _ _ => exact absurd rfl htarget

theorem visited_set_iff {visited : List Bool} {done : List Nat}
    (hindex : currIndex < visited.length) (h : ∀ index, visited[index]? = some true ↔ index ∈ done)
    (index : Nat) :
    (visited.set currIndex true)[index]? = some true ↔ index ∈ done ++ [currIndex] := by
  rw [List.mem_append, List.mem_singleton, ← h index, List.getElem?_set]
  by_cases heq : currIndex = index
  · simp [heq, heq ▸ hindex]
  · simp [heq, Ne.symm heq]

namespace PassInv

variable {start : CfgMethod} {front : List Nat} {pass pass' : Pass σ C}
  {currIndex : Nat} {currBlock : CfgBlock}

section

variable (h : PassInv cfg start front pass)

include h

/-- The labels of a further block. -/
theorem grown_append (hblock : cfg.basicBlocks[currIndex]? = some currBlock) {newCfg : CfgMethod}
    (hgrown : Grown pass.newCfg newCfg (blockLabels currBlock)) :
    Grown start newCfg ((front ++ [currIndex]).flatMap cfg.labelsAt) := by
  rw [List.flatMap_append, List.flatMap_singleton, CfgMethod.labelsAt_of_getElem? hblock]
  exact h.grown.trans hgrown

theorem nodup_append (hvisited : pass.visited[currIndex]? = some false) :
    (front ++ [currIndex]).Nodup := by
  have hnew : currIndex ∉ front := by
    rw [← h.visited_iff, hvisited]
    simp
  rw [← List.concat_eq_append]
  exact h.nodup.concat hnew

theorem copy (hvisited : pass.visited[currIndex]? = some false)
    (hblock : cfg.basicBlocks[currIndex]? = some currBlock)
    (hreachable : pass.reachable[currIndex]? = some false) {newCfg : CfgMethod}
    (hgrown : Grown pass.newCfg newCfg (blockLabels currBlock)) :
    PassInv cfg start (front ++ [currIndex])
      { pass with newCfg := newCfg, visited := pass.visited.set currIndex true } := by
  have hindex : currIndex < cfg.basicBlocks.length := (List.getElem?_eq_some_iff.mp hblock).1
  exact {
    length_visited := by simpa using h.length_visited
    length_reachable := h.length_reachable
    length_initial := h.length_initial
    length_final := h.length_final
    nodup := h.nodup_append hvisited
    visited_iff := visited_set_iff (h.length_visited ▸ hindex) h.visited_iff
    reachable_iff := h.reachable_iff
    final_iff := h.final_iff
    initial := h.initial
    blocks_sublist := h.blocks_sublist.trans (List.sublist_append_left _ _)
    reaches := h.reaches
    skipped := by
      intro index hmem hskip
      by_cases heq : index = currIndex
      · subst heq
        have hnot := mt (h.reachable_iff index hindex).mpr (by simp [hreachable])
        rw [not_or] at hnot
        exact ⟨hnot.1, fun source hsource _ hedge =>
          hnot.2 ⟨source, hsource, hedge⟩⟩
      · rw [List.mem_append, List.mem_singleton, or_iff_left heq] at hmem
        obtain ⟨hzero, hedges⟩ := h.skipped index hmem hskip
        exact ⟨hzero, fun source hsource hsub =>
          hedges source hsource (pair_sublist_of_append heq hsub)⟩
    joins := by
      intro visit hvisit
      obtain ⟨front', back, hsplit, hjoins⟩ := h.joins visit hvisit
      exact ⟨front', back ++ [currIndex], by simp [hsplit], hjoins⟩
    grown := h.grown_append hblock hgrown }

theorem replace (hvisited : pass.visited[currIndex]? = some false)
    (hblock : cfg.basicBlocks[currIndex]? = some currBlock)
    (hreachable : pass.reachable[currIndex]? = some true) {joined : Option (List C)}
    {initial final : C}
    (hreplaced : Replaced cfg { pass with visited := pass.visited.set currIndex true } pass'
      currIndex currBlock joined initial final) :
    PassInv cfg start (front ++ [currIndex]) pass' := by
  have hindex : currIndex < cfg.basicBlocks.length := (List.getElem?_eq_some_iff.mp hblock).1
  have hnodup := h.nodup_append hvisited
  have hnew : currIndex ∉ front := fun hmem =>
    (List.nodup_append'.mp hnodup).2.2 hmem List.mem_cons_self
  have hnewBlock : currIndex ∉ pass.blocks := fun hmem =>
    hnew (h.blocks_sublist.subset hmem)
  have hblocks : pass'.blocks = pass.blocks ++ [currIndex] := by
    simp [Pass.blocks, hreplaced.log_eq]
  have hmemBlocks : ∀ index, index ∈ pass'.blocks ↔ index ∈ pass.blocks ∨ index = currIndex := by
    intro index
    rw [hblocks, List.mem_append, List.mem_singleton]
  have hfinished : ∀ index context, pass'.Finished index context ↔
      pass.Finished index context ∨ (index = currIndex ∧ context = final) := by
    intro index context
    simp only [Pass.Finished, hreplaced.log_eq, List.mem_append,
      List.mem_singleton, or_and_right, exists_or, exists_eq_left]
    rw [@eq_comm _ currIndex index, @eq_comm _ final context]
  have hvisitedIff := visited_set_iff (h.length_visited ▸ hindex) h.visited_iff
  have hreachableIff : ∀ index, index < cfg.basicBlocks.length →
      (pass'.reachable[index]? = some true ↔
        index = 0 ∨ ∃ source ∈ pass'.blocks, Edge cfg.following source index) := by
    intro index hbound
    have hiff := hreplaced.reachable_iff index (h.length_reachable.symm ▸ hbound)
    rw [hiff, h.reachable_iff index hbound, or_assoc, ← CfgMethod.following_of_getElem? hblock]
    simp only [hmemBlocks, or_and_right, exists_or, exists_eq_left]
    rfl
  have hreach : Reaches cfg.following 0 currIndex := by
    rcases (h.reachable_iff currIndex hindex).mp hreachable with
      rfl | ⟨source, hsource, hedge⟩
    · exact .refl
    · exact (h.reaches source hsource).tail hedge
  exact {
    length_visited := by
      rw [hreplaced.visited_eq]
      simpa using h.length_visited
    length_reachable := hreplaced.length_reachable.trans h.length_reachable
    length_initial := by
      rw [hreplaced.initial_eq]
      simpa using h.length_initial
    length_final := by
      rw [hreplaced.final_eq]
      simpa using h.length_final
    nodup := hnodup
    visited_iff := by
      rw [hreplaced.visited_eq]
      exact hvisitedIff
    reachable_iff := hreachableIff
    final_iff := by
      intro index context
      rw [hreplaced.final_eq, inTable_set_iff (h.length_final ▸ hindex),
        hfinished, h.final_iff, or_comm]
      have hother : pass.Finished index context → index ≠ currIndex := by
        rintro hold rfl
        exact hnewBlock (Pass.mem_blocks_of_finished hold)
      rw [and_iff_right_of_imp hother]
    initial := by
      intro index hmem
      rw [hreplaced.initial_eq]
      by_cases heq : index = currIndex
      · exact ⟨initial, (inTable_set_iff (h.length_initial ▸ hindex) _ _).mpr (.inl ⟨heq, rfl⟩)⟩
      · obtain ⟨context, hcontext⟩ :=
          h.initial index (((hmemBlocks index).mp hmem).resolve_right heq)
        exact ⟨context, (inTable_set_iff (h.length_initial ▸ hindex) _ _).mpr
          (.inr ⟨heq, hcontext⟩)⟩
    blocks_sublist := by
      rw [hblocks]
      exact h.blocks_sublist.append (List.Sublist.refl _)
    reaches := by
      intro index hmem
      rcases (hmemBlocks index).mp hmem with hmem | rfl
      · exact h.reaches index hmem
      · exact hreach
    skipped := by
      intro index hmem hskip
      rw [hmemBlocks, not_or] at hskip
      rw [List.mem_append, List.mem_singleton, or_iff_left hskip.2] at hmem
      obtain ⟨hzero, hedges⟩ := h.skipped index hmem hskip.1
      refine ⟨hzero, ?_⟩
      intro source hsource hsub
      have hpair := pair_sublist_of_append hskip.2 hsub
      have hsource' : source ≠ currIndex := by
        rintro rfl
        exact hnew (hpair.subset List.mem_cons_self)
      exact hedges source (((hmemBlocks source).mp hsource).resolve_right hsource')
        hpair
    joins := by
      intro visit hvisit
      rw [hreplaced.log_eq, List.mem_append, List.mem_singleton] at hvisit
      have hmono : ∀ {indices contexts}, List.Forall₂ pass.Finished indices contexts →
          List.Forall₂ pass'.Finished indices contexts := fun hall =>
        hall.imp fun index context hold => (hfinished index context).mpr (.inl hold)
      rcases hvisit with hvisit | rfl
      · obtain ⟨front', back, hsplit, contexts, hcontexts, hjoined⟩ := h.joins visit hvisit
        exact ⟨front', back ++ [currIndex], by simp [hsplit], contexts, hmono hcontexts, hjoined⟩
      · obtain ⟨contexts, hcontexts, hjoined⟩ := hreplaced.joined_eq
        refine ⟨front, [], rfl, contexts, hmono ?_, hjoined⟩
        have hfilter : cfg.visitedPreceding (pass.visited.set currIndex true)
            currIndex = (cfg.preceding currIndex).filter
              (· ∈ front ++ [currIndex]) := by
          refine List.filter_congr fun index _ => ?_
          rw [decide_eq_decide]
          exact hvisitedIff index
        rw [← hfilter]
        exact hcontexts.imp fun index context hin =>
          (h.final_iff index context).mp hin
    grown := h.grown_append hblock hreplaced.grown }

end

/-- The invariant is kept by a round of the pass. -/
theorem visitBlock (hcb : cb.Conforms) (hcfg : cfg.WellFormed chars)
    (h : PassInv cfg start front pass)
    (hvisit : visitBlock cb chars cfg pass currIndex = .ok pass') :
    PassInv cfg start (front ++ [currIndex]) pass' := by
  obtain ⟨hvisited, currBlock, hblock, hcases⟩ := visitBlock_cases hcb hcfg h.length_visited hvisit
  rcases hcases with ⟨hreachable, hgrown, hpass⟩ |
    ⟨hreachable, joined, initial, final, hreplaced⟩
  · rw [hpass]
    exact h.copy hvisited hblock hreachable hgrown
  · exact h.replace hvisited hblock hreachable hreplaced

end PassInv

/-- The graph that the pass begins with, when the first blocks are there: they
have their labels and nothing else. -/
structure StartInv (cfg : CfgMethod) (count : Nat) (start : CfgMethod) : Prop where
  formalReturns_eq : start.formalReturns = cfg.formalReturns
  localVars_eq : start.localVars = cfg.localVars
  reservedLabels_eq : start.reservedLabels = cfg.getAllLabels
  labels_eq : start.labels = []
  blocksLabels_eq : start.basicBlocksLabels = cfg.basicBlocksLabels.take count
  length_eq : start.basicBlocks.length = count

theorem eq_length_of_range_split {count item : Nat} {front : List Nat}
    (h : List.range count = front ++ item :: back) :
    item = front.length ∧ item < count := by
  have hget : (List.range count)[front.length]? = some item := by
    rw [h, List.getElem?_append_right le_rfl, Nat.sub_self, List.getElem?_cons_zero]
  obtain ⟨hlt, hitem⟩ := List.getElem?_eq_some_iff.mp hget
  rw [List.getElem_range] at hitem
  rw [List.length_range] at hlt
  exact ⟨hitem.symm, hitem ▸ hlt⟩

theorem StartInv.addBlock {count : Nat} {label : String} {index : CfgBlockIndex}
    {start' : CfgMethod} (h : StartInv cfg count start)
    (hlabel : cfg.basicBlocksLabels[count]? = some label)
    (hadd : start.addBlock chars label [] = some (index, start')) :
    StartInv cfg (count + 1) start' := by
  unfold CfgMethod.addBlock at hadd
  split at hadd
  · simp only [Option.some.injEq, Prod.mk.injEq] at hadd
    obtain ⟨-, rfl⟩ := hadd
    refine ⟨h.formalReturns_eq, h.localVars_eq, h.reservedLabels_eq,
      h.labels_eq, ?_, by simp [h.length_eq]⟩
    rw [List.take_add_one, hlabel, Option.toList_some, ← h.blocksLabels_eq]
  · cases hadd

theorem startInv_initialCfg {uuid : Nat}
    (h : (initialCfg chars cfg uuid : Except (Stop ε) CfgMethod) = .ok start) :
    StartInv cfg cfg.basicBlocks.length start := by
  rw [initialCfg] at h
  have hinv := foldlM_inv (fun done start => StartInv cfg done.length start)
    (List.range cfg.basicBlocks.length) [] _ start
    ?_ ?_ h
  · simpa using hinv
  · exact ⟨rfl, rfl, rfl, rfl, rfl, rfl⟩
  intro front index back start₁ start₂ hsplit hinv hstep
  rw [List.nil_append] at hsplit
  obtain ⟨rfl, -⟩ := eq_length_of_range_split hsplit
  simp only [bind_eq_ok_iff, orPanic_eq_ok_iff, pure_eq_ok_iff] at hstep
  obtain ⟨label, hlabel, ⟨newIndex, start₂'⟩, hadd, rfl⟩ := hstep
  rw [List.length_append, List.length_singleton]
  exact hinv.addBlock hlabel hadd

theorem StartInv.blocksLabels_eq_all (hcfg : cfg.WellFormed chars)
    (h : StartInv cfg cfg.basicBlocks.length start) :
    start.basicBlocksLabels = cfg.basicBlocksLabels := by
  rw [h.blocksLabels_eq, ← hcfg.length_labels, List.take_length]

theorem noPanic_initialCfg (hcfg : cfg.WellFormed chars) (uuid : Nat) :
    NoPanic (initialCfg chars cfg uuid : Except (Stop ε) CfgMethod) := by
  rw [initialCfg]
  refine NoPanic.foldlM (fun done start => StartInv cfg done.length start)
    (List.range cfg.basicBlocks.length) [] _ ?_ ?_
  · exact ⟨rfl, rfl, rfl, rfl, rfl, rfl⟩
  intro front index back start hsplit hinv
  rw [List.nil_append] at hsplit
  obtain ⟨rfl, hbound⟩ := eq_length_of_range_split hsplit
  have hlabels : front.length < cfg.basicBlocksLabels.length := hcfg.length_labels ▸ hbound
  constructor
  · refine NoPanic.bind (.orPanic ⟨_, List.getElem?_eq_getElem hlabels⟩) ?_
    intro label hlabel
    rw [orPanic_eq_ok_iff] at hlabel
    have hvalid := hcfg.valid_labels label (List.mem_of_getElem? hlabel)
    have hnew : start.basicBlocksLabels.all (fun l => l != label) = true := by
      rw [hinv.blocksLabels_eq, List.all_eq_true]
      intro l hl
      refine bne_iff_ne.mpr ?_
      rintro rfl
      have hsplit := List.take_append_drop front.length cfg.basicBlocksLabels
      have hnodup := hcfg.nodup_labels
      rw [← hsplit] at hnodup
      refine (List.nodup_append'.mp hnodup).2.2 hl ?_
      rw [List.mem_iff_getElem?]
      exact ⟨0, by simpa using hlabel⟩
    refine NoPanic.bind (.orPanic ⟨_, if_pos ?_⟩) ?_
    · rw [hvalid, hnew, Bool.and_self]
    · intro _ _
      exact .pure _
  · intro start' hstep
    simp only [bind_eq_ok_iff, orPanic_eq_ok_iff, pure_eq_ok_iff] at hstep
    obtain ⟨label, hlabel, ⟨newIndex, start₂⟩, hadd, rfl⟩ := hstep
    rw [List.length_append, List.length_singleton]
    exact hinv.addBlock hlabel hadd

/-- The graphs that the pass gets through.  There is a first block; no label
is declared twice or is the name of a block or of a variable; no reachable
block lies on a cycle; and no unreachable block jumps to a reachable one, but
for the first. -/
structure CfgMethod.Traversable (cfg : CfgMethod) : Prop where
  blocks_ne : cfg.basicBlocks ≠ []
  labels_nodup : (cfg.basicBlocks.flatMap blockLabels).Nodup
  labels_new : ∀ label ∈ cfg.basicBlocks.flatMap blockLabels,
    (∀ x ∈ cfg.formalReturns, x.name ≠ label) ∧
      (∀ x ∈ cfg.localVars, x.name ≠ label) ∧ label ∉ cfg.basicBlocksLabels
  acyclic : AcyclicFrom cfg.following 0
  entered : ∀ source target, Edge cfg.following source target →
    Reaches cfg.following 0 target → target ≠ 0 → Reaches cfg.following 0 source

/-- What the pass is to do: every reachable block is visited once, after the
reachable blocks in front of it, and what is joined there are the contexts at
the end of these. -/
structure VisitsReachable (cfg : CfgMethod) (pass : Pass σ C) : Prop where
  nodup : pass.blocks.Nodup
  mem_iff : ∀ index, index ∈ pass.blocks ↔ Reaches cfg.following 0 index
  sorted : ∀ source target, Reaches cfg.following 0 source →
    Edge cfg.following source target → List.Sublist [source, target] pass.blocks
  joins : ∀ visit ∈ pass.log, ∃ sources contexts,
    sources.Nodup ∧
    (∀ source, source ∈ sources ↔ Edge cfg.following source visit.block ∧
      Reaches cfg.following 0 source) ∧
    List.Forall₂ pass.Finished sources contexts ∧
    visit.joined = if sources = [] then none else some contexts

theorem flatMap_labelsAt_range (cfg : CfgMethod) :
    (List.range cfg.basicBlocks.length).flatMap cfg.labelsAt =
      cfg.basicBlocks.flatMap blockLabels := by
  have hmap : (List.range cfg.basicBlocks.length).map cfg.labelsAt =
      cfg.basicBlocks.map blockLabels := by
    refine List.ext_getElem (by simp) ?_
    intro index hindex hindex'
    have hbound : index < cfg.basicBlocks.length := by simpa using hindex'
    simp [CfgMethod.labelsAt, hbound]
  rw [List.flatMap_def, hmap, ← List.flatMap_def]

/-- The labels of all blocks can be added one after the other. -/
theorem freshAll_iff (hcfg : cfg.WellFormed chars)
    (hstart : StartInv cfg cfg.basicBlocks.length start) (horder : cfg.IsOrder order) :
    start.FreshAll (order.flatMap cfg.labelsAt) ↔
      (cfg.basicBlocks.flatMap blockLabels).Nodup ∧
      ∀ label ∈ cfg.basicBlocks.flatMap blockLabels,
        (∀ x ∈ cfg.formalReturns, x.name ≠ label) ∧
          (∀ x ∈ cfg.localVars, x.name ≠ label) ∧
          label ∉ cfg.basicBlocksLabels := by
  have hperm : (order.flatMap cfg.labelsAt).Perm (cfg.basicBlocks.flatMap blockLabels) := by
    rw [← flatMap_labelsAt_range]
    refine List.Perm.flatMap_right _ ?_
    refine (List.perm_ext_iff_of_nodup horder.nodup List.nodup_range).mpr ?_
    intro index
    rw [horder.mem_iff, List.mem_range]
  simp only [CfgMethod.FreshAll, hperm.nodup_iff, hperm.mem_iff,
    CfgMethod.isFreshLocalName_iff, hstart.formalReturns_eq,
    hstart.localVars_eq, hstart.labels_eq, hstart.blocksLabels_eq_all hcfg,
    List.not_mem_nil, not_false_eq_true, true_and]

namespace PassInv

variable {start : CfgMethod} {front : List Nat} {pass : Pass σ C}

/-- At the beginning. -/
theorem initial_state (start : CfgMethod) (replacer : σ) (hblocks : 0 < cfg.basicBlocks.length) :
    PassInv cfg start [] ({
      replacer := replacer, newCfg := start,
      visited := List.replicate cfg.basicBlocks.length false,
      reachable := (List.replicate cfg.basicBlocks.length false).set 0 true,
      initialPctxt := List.replicate cfg.basicBlocks.length none,
      finalPctxt := List.replicate cfg.basicBlocks.length none,
      log := [] } : Pass σ C) where
  length_visited := by simp
  length_reachable := by simp
  length_initial := by simp
  length_final := by simp
  nodup := List.nodup_nil
  visited_iff := by
    intro index
    simp [List.getElem?_replicate]
  reachable_iff := by
    intro index hindex
    by_cases hzero : index = 0
    · simp [hzero, hblocks]
    · simp [hzero, Ne.symm hzero, Pass.blocks, List.getElem?_replicate]
  final_iff := by
    intro index context
    simp [InTable, List.getElem?_replicate, Pass.Finished]
  initial := by simp [Pass.blocks]
  blocks_sublist := List.Sublist.refl _
  reaches := by simp [Pass.blocks]
  skipped := by simp
  joins := by simp
  grown := Grown.refl start

/-- In an order, the source of an edge of the reachable part of an acyclic
graph comes before its target. -/
theorem sorted_of_acyclic (horder : cfg.IsOrder order) (hacyclic : AcyclicFrom cfg.following 0)
    {source target : Nat} (hsource : Reaches cfg.following 0 source)
    (hedge : Edge cfg.following source target) :
    List.Sublist [source, target] order := by
  have hback : ¬ Reaches cfg.following target source := fun hback =>
    hacyclic source hsource (Relation.TransGen.head' hedge hback)
  refine horder.sorted source target hedge ?_ hback
  rintro rfl
  exact hback hsource

/-- The reachable blocks among those that are done have been visited. -/
theorem mem_blocks_of_reaches (horder : cfg.IsOrder (front ++ back))
    (hacyclic : AcyclicFrom cfg.following 0) (h : PassInv cfg start front pass)
    (hreach : Reaches cfg.following 0 index) (hmem : index ∈ front) :
    index ∈ pass.blocks := by
  induction hreach with
  | refl =>
    by_contra hskip
    exact (h.skipped 0 hmem hskip).1 rfl
  | @tail source target hsource hedge ih =>
    have hpair := sorted_of_acyclic horder hacyclic hsource hedge
    obtain ⟨before, after, rfl⟩ := List.append_of_mem hmem
    have hnodup := horder.nodup
    rw [List.append_assoc, List.cons_append] at hpair hnodup
    have hbefore := mem_of_pair_sublist hnodup hpair
    have hblocks := ih (List.mem_append_left _ hbefore)
    by_contra hskip
    refine (h.skipped target hmem hskip).2 source hblocks ?_ hedge
    exact List.Sublist.append (List.singleton_sublist.mpr hbefore)
      (List.singleton_sublist.mpr List.mem_cons_self)

/-- A round of the pass over a graph of the right kind does not panic. -/
theorem noPanic_visitBlock (hcb : cb.Conforms) (hcfg : cfg.WellFormed chars)
    (htraversable : cfg.Traversable) (hstart : StartInv cfg cfg.basicBlocks.length start)
    {currIndex : Nat} (horder : cfg.IsOrder (front ++ currIndex :: back))
    (h : PassInv cfg start front pass) :
    NoPanic (Cfg.visitBlock cb chars cfg pass currIndex) := by
  have hindex : currIndex < cfg.basicBlocks.length := (horder.mem_iff currIndex).mp (by simp)
  have hblock := List.getElem?_eq_getElem hindex
  have hnew : currIndex ∉ front := fun hmem =>
    (List.nodup_append'.mp horder.nodup).2.2 hmem List.mem_cons_self
  have hlabelsAt := CfgMethod.labelsAt_of_getElem? hblock
  have hreserved : ∀ label ∈ blockLabels cfg.basicBlocks[currIndex],
      label ∈ start.reservedLabels := by
    intro label hlabel
    rw [hstart.reservedLabels_eq]
    exact List.mem_append_left _ (hcfg.mem_labels _ (List.getElem_mem hindex) label hlabel)
  have hfresh : pass.newCfg.FreshAll (blockLabels cfg.basicBlocks[currIndex]) := by
    have hall := (freshAll_iff hcfg hstart horder).mpr
      ⟨htraversable.labels_nodup, htraversable.labels_new⟩
    rw [List.flatMap_append, List.flatMap_cons, hlabelsAt, ← List.append_assoc] at hall
    exact h.grown.freshAll ((CfgMethod.freshAll_append _ _ _).mp hall).1 hreserved
  have hblocks : cfg.basicBlocks.length ≤ pass.newCfg.basicBlocks.length :=
    hstart.length_eq ▸ h.grown.length_le
  have hunvisited : pass.visited[currIndex]? = some false := by
    obtain ⟨value, hvalue⟩ : ∃ value, pass.visited[currIndex]? = some value :=
      ⟨_, List.getElem?_eq_getElem (h.length_visited ▸ hindex)⟩
    cases value with
    | false => exact hvalue
    | true => exact absurd ((h.visited_iff currIndex).mp hvalue) hnew
  refine NoPanic.bind (.orPanic ⟨false, hunvisited⟩) ?_
  intro visitedBefore hbefore
  rw [orPanic_eq_ok_iff, hunvisited, Option.some.injEq] at hbefore
  refine NoPanic.bind (.assert (by rw [← hbefore, Bool.not_false])) ?_
  intro _ _
  refine NoPanic.bind (.orPanic ⟨_, hblock⟩) ?_
  intro currBlock hcurrBlock
  rw [orPanic_eq_ok_iff, hblock, Option.some.injEq] at hcurrBlock
  subst hcurrBlock
  refine NoPanic.bind (.orPanic ⟨_, List.getElem?_eq_getElem (h.length_reachable ▸ hindex)⟩) ?_
  intro isReachable hreachable
  rw [orPanic_eq_ok_iff] at hreachable
  split
  · next htrue =>
      subst htrue
      have hreach : Reaches cfg.following 0 currIndex := by
        rcases (h.reachable_iff currIndex hindex).mp hreachable with
          rfl | ⟨source, hsource, hedge⟩
        · exact .refl
        · exact (h.reaches source hsource).tail hedge
      have hloop : ¬ Edge cfg.following currIndex currIndex := fun hedge =>
        htraversable.acyclic currIndex hreach (.single hedge)
      have hvisitedIff := visited_set_iff (h.length_visited ▸ hindex) h.visited_iff
      refine noPanic_replaceBlock hcb hcfg hblock (by simpa using h.length_visited)
        h.length_reachable h.length_initial h.length_final hblocks
        (h.grown.reservedLabels_eq ▸ hreserved) hfresh ?_ ?_
      · -- the visited blocks in front are reachable, so they are finished
        intro source hsource
        rw [CfgMethod.visitedPreceding, List.mem_filter, decide_eq_true_eq,
          CfgMethod.mem_preceding_iff hcfg, hvisitedIff, List.mem_append,
          List.mem_singleton] at hsource
        obtain ⟨hedge, hmem⟩ := hsource
        have hfront : source ∈ front := by
          refine hmem.resolve_right ?_
          rintro rfl
          exact hloop hedge
        have hzero : currIndex ≠ 0 := by
          rintro rfl
          have hhead := horder.head
          cases front with
          | nil => cases hfront
          | cons first rest =>
            rw [List.cons_append, List.head?_cons, Option.some.injEq] at hhead
            exact hnew (hhead ▸ List.mem_cons_self)
        have hsource := htraversable.entered source currIndex hedge hreach hzero
        obtain ⟨context, hcontext⟩ := Pass.exists_finished
          (mem_blocks_of_reaches horder htraversable.acyclic h hsource hfront)
        exact ⟨context, (h.final_iff source context).mpr hcontext⟩
      · -- an edge to a visited block would close a cycle
        intro target htarget hmarked
        rw [← CfgMethod.following_of_getElem? hblock] at htarget
        rw [hvisitedIff, List.mem_append, List.mem_singleton] at hmarked
        refine .inl (hmarked.resolve_left fun hfront => ?_)
        have hpair := sorted_of_acyclic horder htraversable.acyclic hreach htarget
        obtain ⟨before, after, rfl⟩ := List.append_of_mem hfront
        have hnodup := horder.nodup
        rw [List.append_assoc, List.cons_append] at hpair hnodup
        exact hnew (List.mem_append_left _ (mem_of_pair_sublist hnodup hpair))
  · refine NoPanic.bind (noPanic_copyBlock (hindex.trans_le hblocks) hfresh) ?_
    intro _ _
    exact .pure _

end PassInv

/-- A pass that returns has visited the blocks in a topological order. -/
theorem passInv_of_replaceCfg (hcb : cb.Conforms) (hcfg : cfg.WellFormed chars) {replacer : σ}
    {uuid : Nat} (h : replaceCfg cb chars cfg replacer uuid = .ok pass) :
    cfg.basicBlocks ≠ [] ∧ ∃ start order,
      StartInv cfg cfg.basicBlocks.length start ∧ cfg.IsOrder order ∧
        PassInv cfg start order pass := by
  simp only [replaceCfg, bind_eq_ok_iff, orOutOfFuel_eq_ok_iff, setAt_eq_ok_iff] at h
  obtain ⟨start, hstart, sorted, hsorted, _, ⟨hpos, rfl⟩, hrun⟩ := h
  rw [List.length_replicate] at hpos
  have hblocks : cfg.basicBlocks ≠ [] := List.ne_nil_of_length_pos hpos
  obtain ⟨sorted', hsorted', horder⟩ :=
    CfgMethod.getTopologicalSort_isOrder hcfg.targetsInRange hblocks
  rw [hsorted, Option.some.injEq] at hsorted'
  subst hsorted'
  refine ⟨hblocks, start, _, startInv_initialCfg hstart, horder, ?_⟩
  have hinv := foldlM_inv (fun done pass => PassInv cfg start done pass) _ [] _
    pass (PassInv.initial_state start replacer hpos) ?_ hrun
  · rwa [List.nil_append] at hinv
  intro front currIndex back pass₁ pass₂ _ hinv hvisit
  exact hinv.visitBlock hcb hcfg hvisit

theorem noPanic_replaceCfg (hcb : cb.Conforms) (hcfg : cfg.WellFormed chars)
    (htraversable : cfg.Traversable) (replacer : σ) (uuid : Nat) :
    NoPanic (replaceCfg cb chars cfg replacer uuid) := by
  have hpos : 0 < cfg.basicBlocks.length := List.length_pos_of_ne_nil htraversable.blocks_ne
  obtain ⟨sorted, hsorted, horder⟩ :=
    CfgMethod.getTopologicalSort_isOrder hcfg.targetsInRange htraversable.blocks_ne
  refine NoPanic.bind (noPanic_initialCfg hcfg uuid) ?_
  intro start hstart
  have hstart := startInv_initialCfg hstart
  refine NoPanic.bind (.orOutOfFuel ⟨sorted, hsorted⟩) ?_
  intro sorted' hsorted'
  rw [orOutOfFuel_eq_ok_iff, hsorted, Option.some.injEq] at hsorted'
  subst hsorted'
  refine NoPanic.bind (noPanic_setAt true (by simpa using hpos)) ?_
  intro reachable hreachable
  rw [setAt_eq_ok_iff] at hreachable
  obtain ⟨-, rfl⟩ := hreachable
  refine NoPanic.foldlM (fun done pass => PassInv cfg start done pass) _ [] _
    (PassInv.initial_state start replacer hpos) ?_
  intro front currIndex back pass hsplit hinv
  rw [List.nil_append] at hsplit
  refine ⟨PassInv.noPanic_visitBlock hcb hcfg htraversable hstart (hsplit ▸ horder) hinv, ?_⟩
  intro pass' hvisit
  exact hinv.visitBlock hcb hcfg hvisit

/-- The invariant at the end of the pass says what it is to say. -/
theorem PassInv.visitsReachable (hcfg : cfg.WellFormed chars)
    (hacyclic : AcyclicFrom cfg.following 0) (horder : cfg.IsOrder order)
    (h : PassInv cfg start order pass) : VisitsReachable cfg pass := by
  have horder' : cfg.IsOrder (order ++ []) := by rwa [List.append_nil]
  have hmem : ∀ index, index ∈ pass.blocks ↔ Reaches cfg.following 0 index := by
    intro index
    refine ⟨h.reaches index, fun hreach => ?_⟩
    refine mem_blocks_of_reaches horder' hacyclic h hreach ?_
    rw [horder.mem_iff]
    cases hreach with
    | refl =>
      have hzero : 0 ∈ order := List.mem_of_mem_head? horder.head
      exact (horder.mem_iff 0).mp hzero
    | tail _ hedge => exact (CfgMethod.lt_of_mem_following hcfg.targetsInRange hedge).2
  refine ⟨h.blocks_sublist.nodup h.nodup, hmem, ?_, ?_⟩
  · intro source target hsource hedge
    refine pair_sublist_of_part h.nodup h.blocks_sublist
      ((hmem source).mpr hsource) ((hmem target).mpr (hsource.tail hedge)) ?_
    exact sorted_of_acyclic horder hacyclic hsource hedge
  · intro visit hvisit
    obtain ⟨front, back, rfl, contexts, hcontexts, hjoined⟩ := h.joins visit hvisit
    refine ⟨_, contexts, ?_, ?_, hcontexts, ?_⟩
    · exact (List.nodup_range.filter _).filter _
    · intro source
      rw [List.mem_filter, decide_eq_true_eq, CfgMethod.mem_preceding_iff hcfg]
      constructor
      · rintro ⟨hedge, hdone⟩
        obtain ⟨context, -, hcontext⟩ := exists_of_forall₂_mem hcontexts
          (List.mem_filter.mpr ⟨(CfgMethod.mem_preceding_iff hcfg _ _).mpr hedge,
            decide_eq_true hdone⟩)
        exact ⟨hedge, h.reaches source (Pass.mem_blocks_of_finished hcontext)⟩
      · rintro ⟨hedge, hsource⟩
        refine ⟨hedge, ?_⟩
        have hpair := sorted_of_acyclic horder hacyclic hsource hedge
        exact List.mem_append_left _ (mem_of_pair_sublist horder.nodup hpair)
    · rw [hjoined]
      congr 1
      rw [List.isEmpty_iff, ← List.length_eq_zero_iff, ← hcontexts.length_eq,
        List.length_eq_zero_iff]

end

namespace Witness

/-- Characters as in the labels of the encoder. -/
def ascii : CharClass where
  isAlphabetic := Char.isAlpha
  isAlphanumeric := Char.isAlphanum
  alphabetic_l := isAlpha_l
  alphanumeric_digit := isAlphanum_of_isDigit

/-- A replacer that keeps every statement.  Its contexts count the statements;
a join takes the largest count and adds a comment on the edges with less. -/
def counting : CfgReplacer Unit Unit Nat Nat where
  isNoop missing := missing == 0
  initialContext _ := .ok (0, ())
  replaceStmt _ _ stmt _ count _ _ _ := .ok ([stmt], count + 1, ())
  replaceSuccessor _ successor count := .ok ([], successor, count, ())
  prependJoin _ counts :=
    let largest := counts.foldl max 0
    .ok (counts.map (largest - ·), largest, ())
  performPrejoinAction _ count _ _ := .ok ([.comment "wait"], count, ())

theorem counting_conforms : counting.Conforms where
  replaceStmt_labels h := by
    cases h
    simp
  replaceSuccessor_targets h := by
    cases h
    rfl
  replaceSuccessor_labels h := by
    cases h
    rfl
  performPrejoinAction_labels h := by
    cases h
    rfl

/-- A method with the given blocks. -/
def methodOf (labels : List String) (blockLabels : List String)
    (blocks : List CfgBlock) : CfgMethod :=
  { CfgMethod.new 1 "m" 0 [] [] [] with
    labels := labels, basicBlocks := blocks, basicBlocksLabels := blockLabels }

/-- Two branches that join; one of them declares a label. -/
def diamond : CfgMethod :=
  methodOf ["here"] ["start", "left", "right", "stop"]
    [⟨[], .gotoSwitch [(Expr.ofBool true, ⟨1, 1⟩)] ⟨1, 2⟩⟩,
     ⟨[.label "here"], .goto ⟨1, 3⟩⟩, ⟨[], .goto ⟨1, 3⟩⟩, ⟨[], .ret⟩]

/-- The second block is unreachable and jumps to the last one, as the first
block does. -/
def unreachableSource : CfgMethod :=
  methodOf [] ["start", "dead", "stop"] [⟨[], .goto ⟨1, 2⟩⟩, ⟨[], .goto ⟨1, 2⟩⟩, ⟨[], .ret⟩]

theorem wellFormed_diamond : diamond.WellFormed ascii where
  length_labels := rfl
  valid_labels := by decide
  nodup_labels := by decide
  targets_bound := by decide
  mem_labels := by decide

theorem wellFormed_unreachableSource : unreachableSource.WellFormed ascii where
  length_labels := rfl
  valid_labels := by decide
  nodup_labels := by decide
  targets_bound := by decide
  mem_labels := by decide

/-- Every edge of the two branches goes to a later block. -/
theorem lt_of_diamond_edge {source target : Nat}
    (h : Edge diamond.following source target) : source < target := by
  have hsource := (CfgMethod.lt_of_mem_following wellFormed_diamond.targetsInRange h).1
  change source < 4 at hsource
  have hall : ∀ source < 4, ∀ target ∈ diamond.following source, source < target := by decide
  exact hall source hsource target h

theorem traversable_diamond : diamond.Traversable where
  blocks_ne := by simp [diamond, methodOf]
  labels_nodup := by decide
  labels_new := by decide
  acyclic := by
    intro index _ hcycle
    have hlt : ∀ {left right}, Relation.TransGen (Edge diamond.following) left right →
        left < right := by
      intro left right hpath
      induction hpath with
      | single hedge => exact lt_of_diamond_edge hedge
      | tail _ hedge ih => exact ih.trans (lt_of_diamond_edge hedge)
    exact Nat.lt_irrefl index (hlt hcycle)
  entered := by
    intro source target hedge _ _
    have hsource := lt_of_diamond_edge hedge
    have htarget := (CfgMethod.lt_of_mem_following wellFormed_diamond.targetsInRange hedge).2
    change target < 4 at htarget
    have hedges : ∀ index < 3, index = 0 ∨ index ∈ diamond.following 0 := by
      decide
    rcases hedges source (by omega) with rfl | hedge
    · exact .refl
    · exact .single hedge

end Witness

end Prusti.Cfg

/-
Linking of unresolved edges.  While the blocks are encoded every edge of the body is
followed by the copies of its source, or waits to be resolved; an edge is only ever
resolved to a later block that leads to a copy of its target.
-/
import Prusti.Encoder.LoopEncoding

namespace Prusti.Encoder.Procedures

open Prusti.Lib Prusti.Mir

variable {origin : BlockOrigin} {next : Nat} {edge : Nat × BasicBlock}

namespace CfgMethod

section Blocks

variable {method method' : CfgMethod} {index : Nat}

/-- What a block is made for. -/
def originAt (method : CfgMethod) (index : Nat) : Option BlockOrigin :=
  (method.basicBlocks[index]?).map CfgBlock.origin

theorem originAt_eq_some_iff :
    method.originAt index = some origin ↔
      ∃ successor, method.basicBlocks[index]? = some ⟨origin, successor⟩ := by
  rw [originAt, Option.map_eq_some_iff]
  constructor
  · rintro ⟨⟨origin', successor⟩, hblock, rfl⟩
    exact ⟨successor, hblock⟩
  · rintro ⟨successor, hblock⟩
    exact ⟨_, hblock, rfl⟩

theorem following_eq {block : CfgBlock} (h : method.basicBlocks[index]? = some block) :
    method.following index = block.successor.targets := by
  rw [following, h]

theorem mem_following_iff :
    next ∈ method.following index ↔
      ∃ block, method.basicBlocks[index]? = some block ∧ next ∈ block.successor.targets := by
  rw [following]
  cases method.basicBlocks[index]? <;> simp

theorem following_congr (h : method'.basicBlocks[index]? = method.basicBlocks[index]?) :
    method'.following index = method.following index := by
  rw [following, following, h]

theorem originAt_congr (h : method'.basicBlocks[index]? = method.basicBlocks[index]?) :
    method'.originAt index = method.originAt index := by
  rw [originAt, originAt, h]

theorem getElem?_addBlock (method : CfgMethod) (origin : BlockOrigin) (index : Nat) :
    (method.addBlock origin).1.basicBlocks[index]? =
      if index = method.basicBlocks.length then some ⟨origin, .undefined⟩
      else method.basicBlocks[index]? := by
  rw [addBlock, List.getElem?_append]
  split
  · next hlt => rw [if_neg (Nat.ne_of_lt hlt)]
  · next hge =>
      split
      · next heq => simp [heq]
      · next hne =>
          rw [List.getElem?_eq_none (by simp; omega), List.getElem?_eq_none (by omega)]

@[simp] theorem length_addBlock (method : CfgMethod) (origin : BlockOrigin) :
    (method.addBlock origin).1.basicBlocks.length = method.basicBlocks.length + 1 := by
  simp [addBlock]

@[simp] theorem snd_addBlock (method : CfgMethod) (origin : BlockOrigin) :
    (method.addBlock origin).2 = method.basicBlocks.length := rfl

theorem getElem?_setSuccessor (method : CfgMethod) (index index' : Nat) (successor : Successor) :
    (method.setSuccessor index successor).basicBlocks[index']? =
      if index = index' then
        (method.basicBlocks[index']?).map fun block => { block with successor := successor }
      else method.basicBlocks[index']? := by
  rw [setSuccessor, List.getElem?_modify]
  split <;> simp

theorem getElem?_setSuccessor_ne {index' : Nat} (successor : Successor) (h : index ≠ index') :
    (method.setSuccessor index successor).basicBlocks[index']? = method.basicBlocks[index']? := by
  rw [getElem?_setSuccessor, if_neg h]

@[simp] theorem length_setSuccessor (method : CfgMethod) (index : Nat) (successor : Successor) :
    (method.setSuccessor index successor).basicBlocks.length = method.basicBlocks.length := by
  simp [setSuccessor]

@[simp] theorem originAt_setSuccessor (method : CfgMethod) (index index' : Nat)
    (successor : Successor) :
    (method.setSuccessor index successor).originAt index' = method.originAt index' := by
  rw [originAt, originAt, getElem?_setSuccessor]
  split
  · rw [Option.map_map]
    rfl
  · rfl

/-- Blocks are added, and the old ones stay as they are. -/
def Keeps (method method' : CfgMethod) : Prop :=
  ∀ index < method.basicBlocks.length, method'.basicBlocks[index]? = method.basicBlocks[index]?

theorem Keeps.length_le (h : Keeps method method') :
    method.basicBlocks.length ≤ method'.basicBlocks.length := by
  by_contra hlt
  have hkept := h method'.basicBlocks.length (Nat.lt_of_not_le hlt)
  rw [List.getElem?_eq_none le_rfl, eq_comm, List.getElem?_eq_none_iff] at hkept
  exact hlt hkept

theorem Keeps.trans {method'' : CfgMethod} (h : Keeps method method')
    (h' : Keeps method' method'') : Keeps method method'' := by
  intro index hindex
  rw [h' index (hindex.trans_le h.length_le), h index hindex]

theorem keeps_addBlock (method : CfgMethod) (origin : BlockOrigin) :
    Keeps method (method.addBlock origin).1 := by
  intro index hindex
  rw [getElem?_addBlock, if_neg (Nat.ne_of_lt hindex)]

/-- Blocks are added, and blocks without a successor get one. -/
def Extends (method method' : CfgMethod) : Prop :=
  ∀ (index : Nat) (block : CfgBlock), method.basicBlocks[index]? = some block →
    ∃ successor, method'.basicBlocks[index]? = some ⟨block.origin, successor⟩ ∧
      (block.successor = .undefined ∨ successor = block.successor)

namespace Extends

theorem refl (method : CfgMethod) : Extends method method :=
  fun _ block hblock => ⟨block.successor, hblock, .inr rfl⟩

theorem trans {method'' : CfgMethod} (h : Extends method method')
    (h' : Extends method' method'') : Extends method method'' := by
  intro index block hblock
  obtain ⟨successor, hsuccessor, hkept⟩ := h index block hblock
  obtain ⟨successor', hsuccessor', hkept'⟩ := h' index _ hsuccessor
  refine ⟨successor', hsuccessor', ?_⟩
  rcases hkept with hundefined | rfl
  · exact .inl hundefined
  · exact hkept'

theorem of_keeps (h : Keeps method method') : Extends method method' := by
  intro index block hblock
  refine ⟨block.successor, ?_, .inr rfl⟩
  rw [h index (List.getElem?_eq_some_iff.mp hblock).1, hblock]

theorem addBlock (method : CfgMethod) (origin : BlockOrigin) :
    Extends method (method.addBlock origin).1 := of_keeps (keeps_addBlock method origin)

theorem setSuccessor (successor : Successor)
    (h : method.basicBlocks[index]? = some ⟨origin, .undefined⟩) :
    Extends method (method.setSuccessor index successor) := by
  intro index' block hblock
  rw [getElem?_setSuccessor]
  by_cases heq : index = index'
  · subst heq
    rw [h, Option.some_inj] at hblock
    subst hblock
    exact ⟨successor, by rw [if_pos rfl, h]; rfl, .inl rfl⟩
  · exact ⟨block.successor, by rw [if_neg heq, hblock], .inr rfl⟩

theorem originAt (h : Extends method method') (horigin : method.originAt index = some origin) :
    method'.originAt index = some origin := by
  obtain ⟨successor, hblock⟩ := originAt_eq_some_iff.mp horigin
  obtain ⟨successor', hblock', -⟩ := h index _ hblock
  exact originAt_eq_some_iff.mpr ⟨successor', hblock'⟩

theorem following (h : Extends method method') (hnext : next ∈ method.following index) :
    next ∈ method'.following index := by
  obtain ⟨block, hblock, hmem⟩ := mem_following_iff.mp hnext
  obtain ⟨successor, hblock', hkept⟩ := h index block hblock
  rcases hkept with hundefined | rfl
  · rw [hundefined] at hmem
    nomatch hmem
  · exact mem_following_iff.mpr ⟨_, hblock', hmem⟩

end Extends

end Blocks

section Walks

variable (invariantBlock : BasicBlock → Option BasicBlock) (method : CfgMethod)

/-- A walk from a block to a copy of `target` that passes no other copies.  At the end of
the encoding of a loop body, a walk from the invariant block is cut and starts again after
the invariant. -/
inductive ReachesCopy (source target : BasicBlock) : Nat → Nat → Prop where
  | copy {index : Nat} : method.originAt index = some (.copy target) →
      ReachesCopy source target index index
  | step {index next last : Nat} : (∀ bb, method.originAt index ≠ some (.copy bb)) →
      next ∈ method.following index → ReachesCopy source target next last →
      ReachesCopy source target index last
  | restart {index loopHead invPost last : Nat} :
      method.originAt index = some (.endBody loopHead invPost) →
      invariantBlock loopHead = some source → ReachesCopy source target invPost last →
      ReachesCopy source target index last

/-- A block from which edges of `source` to `target` may go on. -/
def Serves (source target : BasicBlock) (index : Nat) : Prop :=
  ∃ last, method.ReachesCopy invariantBlock source target index last

/-- A copy of `source` goes on to a copy of `target`. -/
def Follows (source target : BasicBlock) (index : Nat) : Prop :=
  ∃ next ∈ method.following index, method.Serves invariantBlock source target next

variable {invariantBlock} {method} {method' : CfgMethod} {source target : BasicBlock}

variable {index : Nat}

theorem ReachesCopy.originAt_last {last : Nat}
    (h : method.ReachesCopy invariantBlock source target index last) :
    method.originAt last = some (.copy target) := by
  induction h with
  | copy horigin => exact horigin
  | step _ _ _ ih => exact ih
  | restart _ _ _ ih => exact ih

theorem ReachesCopy.extend (hext : Extends method method') {last : Nat}
    (h : method.ReachesCopy invariantBlock source target index last) :
    method'.ReachesCopy invariantBlock source target index last := by
  induction h with
  | copy horigin => exact .copy (hext.originAt horigin)
  | @step index next last hnot hnext _ ih =>
    refine .step ?_ (hext.following hnext) ih
    intro bb hcopy
    obtain ⟨block, hblock, -⟩ := mem_following_iff.mp hnext
    have horigin := hext.originAt (originAt_eq_some_iff.mpr ⟨block.successor, hblock⟩)
    rw [hcopy, Option.some_inj] at horigin
    exact hnot bb (originAt_eq_some_iff.mpr ⟨block.successor, by rw [horigin]; exact hblock⟩)
  | restart horigin hinv _ ih => exact .restart (hext.originAt horigin) hinv ih

theorem Serves.extend (hext : Extends method method')
    (h : method.Serves invariantBlock source target index) :
    method'.Serves invariantBlock source target index := by
  obtain ⟨last, hlast⟩ := h
  exact ⟨last, hlast.extend hext⟩

theorem Follows.extend (hext : Extends method method')
    (h : method.Follows invariantBlock source target index) :
    method'.Follows invariantBlock source target index := by
  obtain ⟨next, hnext, hserves⟩ := h
  exact ⟨next, hext.following hnext, hserves.extend hext⟩

/-- A copy serves its block, wherever the edge comes from. -/
theorem Serves.of_copy (h : method.originAt index = some (.copy target)) :
    method.Serves invariantBlock source target index := ⟨index, .copy h⟩

/-- A block that is no copy serves what the block behind it serves. -/
theorem Serves.step (horigin : method.originAt index = some origin) (hnot : ∀ bb, origin ≠ .copy bb)
    (hnext : next ∈ method.following index) (h : method.Serves invariantBlock source target next) :
    method.Serves invariantBlock source target index := by
  obtain ⟨last, hlast⟩ := h
  refine ⟨last, .step ?_ hnext hlast⟩
  intro bb hcopy
  rw [horigin, Option.some_inj] at hcopy
  exact hnot bb hcopy

end Walks

/-- The block stands for the edge: it is a copy of its source or a block on the edge. -/
def SourceAt (method : CfgMethod) (index : Nat) (source target : BasicBlock) : Prop :=
  method.originAt index = some (.copy source) ∨ method.originAt index = some (.edge source target)

theorem SourceAt.unique {method : CfgMethod} {index : Nat} {source source' target : BasicBlock}
    (h : method.SourceAt index source target) (h' : method.SourceAt index source' target) :
    source = source' := by
  rcases h with h | h <;> rcases h' with h' | h' <;> simp_all

theorem SourceAt.extend {method method' : CfgMethod} (hext : Extends method method')
    {index : Nat} {source target : BasicBlock} (h : method.SourceAt index source target) :
    method'.SourceAt index source target :=
  h.imp hext.originAt hext.originAt

end CfgMethod

open CfgMethod

section Linking

variable (targets : BasicBlock → List BasicBlock) (invariantBlock : BasicBlock → Option BasicBlock)

/-- An edge of a copy is not resolved yet. -/
def Waits (method : CfgMethod) (unresolved : List (Nat × BasicBlock)) (index : Nat)
    (source target : BasicBlock) : Prop :=
  (index, target) ∈ unresolved ∨
    ∃ next ∈ method.following index,
      method.originAt next = some (.edge source target) ∧ (next, target) ∈ unresolved

/-- The method while it is built: blocks jump to later blocks or to the return block, and
every edge of a copy is followed unless it is still unresolved. -/
structure Linking (method : CfgMethod) (unresolved : List (Nat × BasicBlock)) : Prop where
  forward : ∀ index, ∀ next ∈ method.following index, next = returnCfgBlock ∨ index < next
  returns : method.basicBlocks[returnCfgBlock]? = some ⟨.return, .return⟩
  nodup : (unresolved.map Prod.fst).Nodup
  pending : ∀ edge ∈ unresolved,
    (∃ origin, method.basicBlocks[edge.1]? = some ⟨origin, .undefined⟩) ∧
      ∃ source, method.SourceAt edge.1 source edge.2
  follows : ∀ index source, method.originAt index = some (.copy source) →
    ∀ target ∈ targets source,
      method.Follows invariantBlock source target index ∨
        Waits method unresolved index source target

variable {targets} {invariantBlock} {method method' : CfgMethod}
  {unresolved front pending back : List (Nat × BasicBlock)}

theorem Waits.extend (hext : Extends method method') {index : Nat} {source target : BasicBlock}
    (h : Waits method unresolved index source target) :
    Waits method' unresolved index source target := by
  rcases h with h | ⟨next, hnext, horigin, hmem⟩
  · exact .inl h
  · exact .inr ⟨next, hext.following hnext, hext.originAt horigin, hmem⟩

section

variable (h : Linking targets invariantBlock method unresolved)

include h

/-- No edge goes back. -/
theorem Linking.acyclic (index : Nat) :
    ¬ Relation.TransGen (Edge method.following) index index := by
  have hreturn : method.following returnCfgBlock = [] := by
    rw [following_eq h.returns]
    rfl
  have hpath : ∀ last, Relation.TransGen (Edge method.following) index last →
      last = returnCfgBlock ∨ index < last := by
    intro last hlast
    induction hlast with
    | single hedge => exact h.forward _ _ hedge
    | @tail middle last _ hedge ih =>
      rcases ih with rfl | hlt
      · rw [Edge, hreturn] at hedge
        nomatch hedge
      · rcases h.forward _ _ hedge with heq | hlt'
        · exact .inl heq
        · exact .inr (hlt.trans hlt')
  intro hcycle
  rcases hpath index hcycle with rfl | hlt
  · obtain ⟨next, hfirst, -⟩ := Relation.TransGen.head'_iff.mp hcycle
    rw [Edge, hreturn] at hfirst
    nomatch hfirst
  · exact Nat.lt_irrefl index hlt

/-- The method may grow by blocks that are no copies. -/
theorem Linking.extend (hext : Extends method method')
    (hforward : ∀ index, ∀ next ∈ method'.following index, next = returnCfgBlock ∨ index < next)
    (hundefined : ∀ edge ∈ unresolved, method'.basicBlocks[edge.1]? = method.basicBlocks[edge.1]?)
    (hcopies : ∀ index source, method'.originAt index = some (.copy source) →
      method.originAt index = some (.copy source)) :
    Linking targets invariantBlock method' unresolved where
  forward := hforward
  returns := by
    obtain ⟨successor, hblock, hkept⟩ := hext _ _ h.returns
    rcases hkept with hkept | rfl
    · nomatch hkept
    · exact hblock
  nodup := h.nodup
  pending := by
    intro edge hedge
    obtain ⟨⟨origin, hblock⟩, source, hsource⟩ := h.pending edge hedge
    exact ⟨⟨origin, by rw [hundefined edge hedge, hblock]⟩, source, hsource.extend hext⟩
  follows := by
    intro index source horigin target htarget
    rcases h.follows index source (hcopies index source horigin) target htarget with hf | hw
    · exact .inl (hf.extend hext)
    · exact .inr (hw.extend hext)

theorem Linking.lt_length (hedge : edge ∈ unresolved) : edge.1 < method.basicBlocks.length := by
  obtain ⟨⟨origin, hblock⟩, -⟩ := h.pending edge hedge
  exact (List.getElem?_eq_some_iff.mp hblock).1

theorem Linking.returnCfgBlock_lt : returnCfgBlock < method.basicBlocks.length :=
  (List.getElem?_eq_some_iff.mp h.returns).1

theorem Linking.addBlock (origin : BlockOrigin) (hnot : ∀ bb, origin ≠ .copy bb) :
    Linking targets invariantBlock (method.addBlock origin).1 unresolved := by
  apply h.extend (.addBlock method origin)
  · intro index next hnext
    obtain ⟨block, hblock, hmem⟩ := mem_following_iff.mp hnext
    rw [getElem?_addBlock] at hblock
    split at hblock
    · rw [Option.some_inj] at hblock
      subst hblock
      nomatch hmem
    · exact h.forward index next (mem_following_iff.mpr ⟨block, hblock, hmem⟩)
  · intro edge hedge
    rw [getElem?_addBlock, if_neg (Nat.ne_of_lt (h.lt_length hedge))]
  · intro index source horigin
    obtain ⟨successor, hblock⟩ := originAt_eq_some_iff.mp horigin
    rw [getElem?_addBlock] at hblock
    split at hblock
    · rw [Option.some_inj, CfgBlock.mk.injEq] at hblock
      exact absurd hblock.1 (hnot source)
    · exact originAt_eq_some_iff.mpr ⟨successor, hblock⟩

end

theorem forward_setSuccessor {index : Nat} {successor : Successor}
    (h : ∀ index, ∀ next ∈ method.following index, next = returnCfgBlock ∨ index < next)
    (hforward : ∀ next ∈ successor.targets, next = returnCfgBlock ∨ index < next) :
    ∀ index', ∀ next ∈ (method.setSuccessor index successor).following index',
      next = returnCfgBlock ∨ index' < next := by
  intro index' next hnext
  obtain ⟨block, hblock, hmem⟩ := mem_following_iff.mp hnext
  rw [getElem?_setSuccessor] at hblock
  split at hblock
  · next heq =>
      subst heq
      obtain ⟨block', -, rfl⟩ := Option.map_eq_some_iff.mp hblock
      exact hforward next hmem
  · exact h index' next (mem_following_iff.mpr ⟨block, hblock, hmem⟩)

/-- A block that is neither a copy nor on an edge gets its successor. -/
theorem Linking.setSuccessor (h : Linking targets invariantBlock method unresolved) {index : Nat}
    {successor : Successor} (hblock : method.basicBlocks[index]? = some ⟨origin, .undefined⟩)
    (hcopy : ∀ bb, origin ≠ .copy bb) (hedge : ∀ bb bb', origin ≠ .edge bb bb')
    (hforward : ∀ next ∈ successor.targets, next = returnCfgBlock ∨ index < next) :
    Linking targets invariantBlock (method.setSuccessor index successor) unresolved := by
  apply h.extend (.setSuccessor successor hblock)
  · exact forward_setSuccessor h.forward hforward
  · intro edge hmem
    apply getElem?_setSuccessor_ne
    intro heq
    obtain ⟨-, source, hsource⟩ := h.pending edge hmem
    have horigin := originAt_eq_some_iff.mpr ⟨_, hblock⟩
    rw [heq] at horigin
    rcases hsource with hsource | hsource
    · rw [horigin, Option.some_inj] at hsource
      exact hcopy source hsource
    · rw [horigin, Option.some_inj] at hsource
      exact hedge source edge.2 hsource
  · intro index' source hsource
    rwa [originAt_setSuccessor] at hsource

/-- Resolve one edge to a later block that serves it. -/
theorem Linking.link {targetBlock : Nat}
    (h : Linking targets invariantBlock method (front ++ edge :: back)) (hlt : edge.1 < targetBlock)
    (hserves : ∀ source, method.SourceAt edge.1 source edge.2 →
      method.Serves invariantBlock source edge.2 targetBlock) :
    Linking targets invariantBlock (method.setSuccessor edge.1 (.goto targetBlock))
      (front ++ back) := by
  obtain ⟨currBlock, target⟩ := edge
  obtain ⟨⟨origin, hblock⟩, -⟩ := h.pending (currBlock, target) (by simp)
  have hext : Extends method (method.setSuccessor currBlock (.goto targetBlock)) :=
    .setSuccessor _ hblock
  have hnodup := h.nodup
  rw [List.map_append, List.map_cons, List.nodup_middle, List.nodup_cons] at hnodup
  have hfollowing : (method.setSuccessor currBlock (.goto targetBlock)).following currBlock =
      [targetBlock] := by
    refine @following_eq _ _ ⟨origin, .goto targetBlock⟩ ?_
    rw [getElem?_setSuccessor, if_pos rfl, hblock]
    rfl
  constructor
  · apply forward_setSuccessor h.forward
    intro next hnext
    rw [Successor.targets, List.mem_singleton] at hnext
    exact .inr (hnext ▸ hlt)
  · obtain ⟨successor, hreturns, hkept⟩ := hext _ _ h.returns
    rcases hkept with hkept | rfl
    · nomatch hkept
    · exact hreturns
  · rw [List.map_append]
    exact hnodup.2
  · intro edge hedge
    have hold : edge ∈ front ++ (currBlock, target) :: back := by
      rcases List.mem_append.mp hedge with hedge | hedge <;> simp [hedge]
    obtain ⟨⟨origin', hblock'⟩, source, hsource⟩ := h.pending edge hold
    refine ⟨⟨origin', ?_⟩, source, hsource.extend hext⟩
    rw [getElem?_setSuccessor_ne, hblock']
    intro heq
    apply hnodup.1
    rw [← List.map_append, heq]
    exact List.mem_map_of_mem hedge
  · intro index source horigin target' htarget'
    rw [originAt_setSuccessor] at horigin
    rcases h.follows index source horigin target' htarget' with hf | hw
    · exact .inl (hf.extend hext)
    · rcases hw with hmem | ⟨next, hnext, hedge, hmem⟩
      · by_cases heq : (index, target') = (currBlock, target)
        · -- the copy itself is linked
          cases heq
          have hserves' := (hserves source (.inl horigin)).extend hext
          exact .inl ⟨targetBlock, by rw [hfollowing]; exact List.mem_singleton_self _, hserves'⟩
        · refine .inr (.inl ?_)
          rw [List.mem_append, List.mem_cons] at hmem
          rw [List.mem_append]
          tauto
      · by_cases heq : (next, target') = (currBlock, target)
        · -- the block on its edge is linked
          cases heq
          have hserves' := (hserves source (.inr hedge)).extend hext
          have hnext' : targetBlock ∈ (method.setSuccessor currBlock
              (.goto targetBlock)).following currBlock := by
            rw [hfollowing]
            exact List.mem_singleton_self _
          refine .inl ⟨currBlock, hext.following hnext, ?_⟩
          exact hserves'.step (hext.originAt hedge) (fun bb hbb => nomatch hbb) hnext'
        · refine .inr (.inr ⟨next, hext.following hnext, hext.originAt hedge, ?_⟩)
          rw [List.mem_append, List.mem_cons] at hmem
          rw [List.mem_append]
          tauto

/-- The edges that stay are those without a target. -/
theorem snd_encodeUnresolvedEdges (resolver : BasicBlock → Option Nat) (method : CfgMethod)
    (pending : List (Nat × BasicBlock)) :
    (encodeUnresolvedEdges resolver method pending).2 =
      pending.filter fun edge => (resolver edge.2).isNone := by
  induction pending generalizing method with
  | nil => rfl
  | cons edge pending ih =>
    obtain ⟨currBlock, target⟩ := edge
    rw [encodeUnresolvedEdges, List.filter_cons]
    cases hresolved : resolver target with
    | some targetBlock => simp [ih]
    | none => simp [ih]

theorem mem_snd_encodeUnresolvedEdges_iff {resolver : BasicBlock → Option Nat} :
    edge ∈ (encodeUnresolvedEdges resolver method pending).2 ↔
      edge ∈ pending ∧ resolver edge.2 = none := by
  rw [snd_encodeUnresolvedEdges, List.mem_filter, Option.isNone_iff_eq_none]

/-- Resolve edges to later blocks that serve them. -/
theorem Linking.encodeUnresolvedEdges (resolver : BasicBlock → Option Nat)
    (h : Linking targets invariantBlock method (front ++ (pending ++ back)))
    (hserves : ∀ edge ∈ pending, ∀ targetBlock, resolver edge.2 = some targetBlock →
      edge.1 < targetBlock ∧ ∀ source, method.SourceAt edge.1 source edge.2 →
        method.Serves invariantBlock source edge.2 targetBlock) :
    Linking targets invariantBlock (encodeUnresolvedEdges resolver method pending).1
        (front ++ ((encodeUnresolvedEdges resolver method pending).2 ++ back)) ∧
      Extends method (encodeUnresolvedEdges resolver method pending).1 ∧
      ∀ index ∉ pending.map Prod.fst,
        (encodeUnresolvedEdges resolver method pending).1.basicBlocks[index]? =
          method.basicBlocks[index]? := by
  induction pending generalizing method front with
  | nil => exact ⟨h, .refl method, fun _ _ => rfl⟩
  | cons edge pending ih =>
    obtain ⟨currBlock, target⟩ := edge
    rw [Procedures.encodeUnresolvedEdges]
    cases hresolved : resolver target with
    | some targetBlock =>
      obtain ⟨hlt, hserved⟩ := hserves _ List.mem_cons_self targetBlock hresolved
      obtain ⟨⟨origin, hblock⟩, -⟩ := h.pending (currBlock, target) (by simp)
      have hext : Extends method (method.setSuccessor currBlock (.goto targetBlock)) :=
        .setSuccessor _ hblock
      have hnext := h.link hlt hserved
      obtain ⟨hlinking, hextend, hkeeps⟩ := ih hnext (by
        intro edge hedge targetBlock' hresolved'
        obtain ⟨hlt', hserved'⟩ :=
          hserves edge (List.mem_cons_of_mem _ hedge) targetBlock' hresolved'
        refine ⟨hlt', fun source hsource => ?_⟩
        rw [SourceAt, originAt_setSuccessor] at hsource
        exact (hserved' source hsource).extend hext)
      refine ⟨hlinking, hext.trans hextend, ?_⟩
      intro index hindex
      rw [List.map_cons, List.mem_cons, not_or] at hindex
      rw [hkeeps index hindex.2, getElem?_setSuccessor_ne _ (Ne.symm hindex.1)]
    | none =>
      have hsplit : ∀ rest : List (Nat × BasicBlock),
          front ++ ((currBlock, target) :: rest ++ back) =
            (front ++ [(currBlock, target)]) ++ (rest ++ back) := by
        intro rest
        simp
      rw [hsplit pending] at h
      obtain ⟨hlinking, hextend, hkeeps⟩ :=
        ih h fun edge hedge => hserves edge (List.mem_cons_of_mem _ hedge)
      refine ⟨by rw [hsplit]; exact hlinking, hextend, ?_⟩
      intro index hindex
      rw [List.map_cons, List.mem_cons, not_or] at hindex
      exact hkeeps index hindex.2

end Linking

end Prusti.Encoder.Procedures

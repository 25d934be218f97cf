/-
The executions of a method: the statements that are executed and the branches that
are taken on the way from a block to the end of the method.
-/
import Prusti.Cfg.TopologicalSort
import Prusti.Cfg.Exprs

namespace Prusti.Cfg

open Prusti.Vir

/-- What can be seen of an execution.  A branch is given by all its guards and by
the one that is taken, if it is not the default. -/
inductive Event where
  | stmt (stmt : Stmt)
  | branch (guards : List Expr) (taken : Option Nat)

/-- How an execution ends. -/
inductive Final where
  | undefined
  | ret
deriving DecidableEq, Repr

/-- Leave a block: either for good, or to another block. -/
inductive Successor.Leaves : Successor → List Event → Final ⊕ Nat → Prop where
  | undefined : Leaves .undefined [] (.inl .undefined)
  | ret : Leaves .ret [] (.inl .ret)
  | goto {target : CfgBlockIndex} : Leaves (.goto target) [] (.inr target.blockIndex)
  | guarded {guardedTargets : List (Expr × CfgBlockIndex)}
      {defaultTarget target : CfgBlockIndex} {index : Nat} {guard : Expr}
      (h : guardedTargets[index]? = some (guard, target)) :
      Leaves (.gotoSwitch guardedTargets defaultTarget)
        [.branch (guardedTargets.map (·.1)) (some index)] (.inr target.blockIndex)
  | default {guardedTargets : List (Expr × CfgBlockIndex)}
      {defaultTarget : CfgBlockIndex} :
      Leaves (.gotoSwitch guardedTargets defaultTarget)
        [.branch (guardedTargets.map (·.1)) none] (.inr defaultTarget.blockIndex)

namespace CfgMethod

/-- The executions from a block. -/
inductive Executes (method : CfgMethod) : Nat → List Event → Final → Prop where
  | final {index : Nat} {block : CfgBlock} {events : List Event} {final : Final}
      (hblock : method.basicBlocks[index]? = some block)
      (hleaves : block.successor.Leaves events (.inl final)) :
      Executes method index (block.stmts.map .stmt ++ events) final
  | next {index next : Nat} {block : CfgBlock} {events trace : List Event}
      {final : Final} (hblock : method.basicBlocks[index]? = some block)
      (hleaves : block.successor.Leaves events (.inr next))
      (hnext : Executes method next trace final) :
      Executes method index (block.stmts.map .stmt ++ events ++ trace) final

end CfgMethod

/-- Execute a block, where `next` says what is executed afterwards. -/
inductive CfgBlock.Runs (next : Nat → List Event → Final → Prop) (block : CfgBlock) :
    List Event → Final → Prop where
  | final {events : List Event} {final : Final}
      (hleaves : block.successor.Leaves events (.inl final)) :
      Runs next block (block.stmts.map .stmt ++ events) final
  | next {target : Nat} {events trace : List Event} {final : Final}
      (hleaves : block.successor.Leaves events (.inr target))
      (hnext : next target trace final) :
      Runs next block (block.stmts.map .stmt ++ events ++ trace) final

namespace CfgMethod

theorem executes_iff (method : CfgMethod) (index : Nat) (trace : List Event) (final : Final) :
    method.Executes index trace final ↔
      ∃ block, method.basicBlocks[index]? = some block ∧
        block.Runs method.Executes trace final := by
  constructor
  · intro h
    cases h with
    | final hblock hleaves => exact ⟨_, hblock, .final hleaves⟩
    | next hblock hleaves hnext => exact ⟨_, hblock, .next hleaves hnext⟩
  · rintro ⟨block, hblock, h⟩
    cases h with
    | final hleaves => exact .final hblock hleaves
    | next hleaves hnext => exact .next hblock hleaves hnext

end CfgMethod

namespace Successor

/-- A block is left to one of its targets. -/
theorem Leaves.mem_targets {successor : Successor} {events : List Event} {target : Nat}
    (h : successor.Leaves events (.inr target)) : target ∈ successor.targets := by
  cases h with
  | goto => exact List.mem_cons_self
  | guarded h =>
    refine List.mem_map_of_mem (List.mem_append_left _ ?_)
    exact List.mem_map_of_mem (f := Prod.snd) (List.mem_of_getElem? h)
  | default => exact List.mem_map_of_mem (List.mem_append_right _ List.mem_cons_self)

/-- Change the positions of the targets. -/
def renumber (rename : Nat → Nat) (successor : Successor) : Successor :=
  successor.mapTargets fun target =>
    { target with blockIndex := rename target.blockIndex }

theorem targets_renumber (rename : Nat → Nat) (successor : Successor) :
    (successor.renumber rename).targets = successor.targets.map rename := by
  simp [targets, renumber, getFollowing_mapTargets, Function.comp_def]

/-- A block whose targets are renumbered is left in the same ways. -/
theorem leaves_renumber_iff (rename : Nat → Nat) (successor : Successor)
    (events : List Event) (out : Final ⊕ Nat) :
    (successor.renumber rename).Leaves events out ↔
      ∃ out', successor.Leaves events out' ∧ out = out'.map id rename := by
  have hguards : ∀ guardedTargets : List (Expr × CfgBlockIndex),
      (guardedTargets.map fun guarded => (guarded.1,
        { guarded.2 with blockIndex := rename guarded.2.blockIndex })).map (·.1) =
      guardedTargets.map (·.1) := by
    intro guardedTargets
    rw [List.map_map]
    rfl
  constructor
  · intro h
    cases successor with
    | undefined =>
      cases h
      exact ⟨_, .undefined, rfl⟩
    | ret =>
      cases h
      exact ⟨_, .ret, rfl⟩
    | goto target =>
      cases h
      exact ⟨_, .goto, rfl⟩
    | gotoSwitch guardedTargets defaultTarget =>
      generalize hout : renumber rename _ = renumbered at h
      cases h with
      | undefined | ret | goto => cases hout
      | guarded htarget =>
        cases hout
        rw [List.getElem?_map, Option.map_eq_some_iff] at htarget
        obtain ⟨guarded, hguarded, heq⟩ := htarget
        cases heq
        rw [hguards]
        exact ⟨_, .guarded hguarded, rfl⟩
      | default =>
        cases hout
        rw [hguards]
        exact ⟨_, .default, rfl⟩
  · rintro ⟨out', h, rfl⟩
    cases h with
    | undefined => exact .undefined
    | ret => exact .ret
    | goto => exact .goto
    | @guarded guardedTargets defaultTarget target index guard h =>
      have h' : (guardedTargets.map fun guarded => (guarded.1,
          { guarded.2 with blockIndex := rename guarded.2.blockIndex }))[index]? =
          some (guard, { target with blockIndex := rename target.blockIndex }) := by
        rw [List.getElem?_map, h]
        rfl
      have hleaves := @Leaves.guarded _
        { defaultTarget with blockIndex := rename defaultTarget.blockIndex } _ _ _ h'
      rw [hguards] at hleaves
      exact hleaves
    | @default guardedTargets defaultTarget =>
      have hleaves := @Leaves.default (guardedTargets.map fun guarded => (guarded.1,
          { guarded.2 with blockIndex := rename guarded.2.blockIndex }))
        { defaultTarget with blockIndex := rename defaultTarget.blockIndex }
      rw [hguards] at hleaves
      exact hleaves

end Successor

namespace CfgBlock

variable {next next' : Nat → List Event → Final → Prop} {block : CfgBlock}
  {trace : List Event} {final : Final}

theorem Runs.mono (h : block.Runs next trace final)
    (himp : ∀ target ∈ block.successor.targets, ∀ trace final,
      next target trace final → next' target trace final) :
    block.Runs next' trace final := by
  cases h with
  | final hleaves => exact .final hleaves
  | next hleaves hnext => exact .next hleaves (himp _ hleaves.mem_targets _ _ hnext)

/-- Only what is executed after the targets matters. -/
theorem runs_congr (heq : ∀ target ∈ block.successor.targets, ∀ trace final,
    next target trace final ↔ next' target trace final) :
    block.Runs next trace final ↔ block.Runs next' trace final := by
  constructor
  · intro h
    exact h.mono fun target htarget trace final => (heq target htarget trace final).mp
  · intro h
    exact h.mono fun target htarget trace final => (heq target htarget trace final).mpr

theorem runs_iff : block.Runs next trace final ↔
    (∃ events, block.successor.Leaves events (.inl final) ∧
      trace = block.stmts.map .stmt ++ events) ∨
    ∃ target events rest, block.successor.Leaves events (.inr target) ∧
      next target rest final ∧ trace = block.stmts.map .stmt ++ events ++ rest := by
  constructor
  · intro h
    cases h with
    | final hleaves => exact .inl ⟨_, hleaves, rfl⟩
    | next hleaves hnext => exact .inr ⟨_, _, _, hleaves, hnext, rfl⟩
  · rintro (⟨events, hleaves, rfl⟩ | ⟨target, events, rest, hleaves, hnext, rfl⟩)
    · exact .final hleaves
    · exact .next hleaves hnext

theorem runs_renumber_iff (rename : Nat → Nat) :
    CfgBlock.Runs next ⟨block.stmts, block.successor.renumber rename⟩ trace final ↔
      block.Runs (fun target => next (rename target)) trace final := by
  simp only [runs_iff, Successor.leaves_renumber_iff]
  constructor
  · rintro (⟨events, ⟨out, hleaves, heq⟩, rfl⟩ |
      ⟨target, events, rest, ⟨out, hleaves, heq⟩, hnext, rfl⟩)
    · cases out with
      | inl final =>
        cases heq
        exact .inl ⟨events, hleaves, rfl⟩
      | inr target => cases heq
    · cases out with
      | inl final => cases heq
      | inr target =>
        cases heq
        exact .inr ⟨target, events, rest, hleaves, hnext, rfl⟩
  · rintro (⟨events, hleaves, rfl⟩ | ⟨target, events, rest, hleaves, hnext, rfl⟩)
    · exact .inl ⟨events, ⟨_, hleaves, rfl⟩, rfl⟩
    · exact .inr ⟨_, events, rest, ⟨_, hleaves, rfl⟩, hnext, rfl⟩

/-- A block that jumps to another block runs as the two blocks in one. -/
theorem runs_append_iff (method : CfgMethod) {target : CfgBlockIndex}
    {targetBlock : CfgBlock} (hgoto : block.successor = .goto target)
    (htarget : method.basicBlocks[target.blockIndex]? = some targetBlock) :
    CfgBlock.Runs method.Executes
        ⟨block.stmts ++ targetBlock.stmts, targetBlock.successor⟩ trace final ↔
      block.Runs method.Executes trace final := by
  have hjump : block.Runs method.Executes trace final ↔
      ∃ rest, targetBlock.Runs method.Executes rest final ∧
        trace = block.stmts.map .stmt ++ rest := by
    rw [runs_iff, hgoto]
    constructor
    · rintro (⟨events, hleaves, -⟩ | ⟨next, events, rest, hleaves, hnext, rfl⟩)
      · cases hleaves
      · cases hleaves
        obtain ⟨other, hother, h⟩ := (method.executes_iff _ _ _).mp hnext
        cases htarget.symm.trans hother
        exact ⟨rest, h, by rw [List.append_nil]⟩
    · rintro ⟨rest, h, rfl⟩
      refine .inr ⟨_, [], rest, .goto, ?_, by rw [List.append_nil]⟩
      exact (method.executes_iff _ _ _).mpr ⟨targetBlock, htarget, h⟩
  rw [hjump]
  simp only [runs_iff, List.map_append, List.append_assoc]
  constructor
  · rintro (⟨events, hleaves, rfl⟩ | ⟨next, events, rest, hleaves, hnext, rfl⟩)
    · exact ⟨_, .inl ⟨events, hleaves, rfl⟩, rfl⟩
    · exact ⟨_, .inr ⟨next, events, rest, hleaves, hnext, rfl⟩, rfl⟩
  · rintro ⟨_, ⟨events, hleaves, rfl⟩ | ⟨next, events, rest, hleaves, hnext, rfl⟩, rfl⟩
    · exact .inl ⟨events, hleaves, rfl⟩
    · exact .inr ⟨next, events, rest, hleaves, hnext, rfl⟩

end CfgBlock

end Prusti.Cfg

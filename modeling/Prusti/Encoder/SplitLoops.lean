/-
Where the body of a loop is split, told from the positions of its blocks, and what the
edges between the parts must be like for the copies of the parts to be linked in a row.
-/
import Prusti.Encoder.EncodedLoops
import Prusti.Mir.OrderedLoops

namespace Prusti.Encoder.Procedures

open Prusti.Lib Prusti.Mir

universe u

/-- The evaluation of the guard, and what is before and after the invariant. -/
inductive LoopPart where
  | guard
  | beforeInv
  | afterInv
deriving DecidableEq, Repr

namespace ProcedureEncoder

variable {Ty : Type u}

section Parts

variable (encoder : ProcedureEncoder Ty) (loopHead inv : BasicBlock)

def position (bb : BasicBlock) : Nat := (encoder.loopBody loopHead).idxOf bb

/-- From the block on, and up to the invariant block, it is decided whether the loop is left. -/
def EvaluatesGuard (bb : BasicBlock) : Prop :=
  ∃ exitBlock ∈ encoder.loops.getLoopExitBlocks loopHead,
    exitBlock ∈ encoder.loopBody loopHead ∧
      encoder.position loopHead bb ≤ encoder.position loopHead exitBlock ∧
        encoder.position loopHead exitBlock ≤ encoder.position loopHead inv

instance (bb : BasicBlock) : Decidable (encoder.EvaluatesGuard loopHead inv bb) :=
  inferInstanceAs (Decidable (∃ _ ∈ _, _))

def partOf (bb : BasicBlock) : LoopPart :=
  if encoder.EvaluatesGuard loopHead inv bb then .guard
  else if encoder.position loopHead bb ≤ encoder.position loopHead inv then .beforeInv
  else .afterInv

/-- The block stands directly behind a part of the body. -/
def StartsBehind (part : LoopPart) (bb : BasicBlock) : Prop :=
  encoder.partOf loopHead inv bb ≠ part ∧
    ∃ last ∈ encoder.loopBody loopHead, encoder.partOf loopHead inv last = part ∧
      encoder.position loopHead bb = encoder.position loopHead last + 1

instance (part : LoopPart) (bb : BasicBlock) :
    Decidable (encoder.StartsBehind loopHead inv part bb) :=
  inferInstanceAs (Decidable (_ ∧ ∃ _ ∈ _, _))

/-- An edge inside of the body stays in its part without going back to the head, or leads to
the block that stands behind the part, past the invariant from the invariant block only, or
leads back to the head from after the invariant. -/
def KeepsToParts (entry source target : BasicBlock) : Prop :=
  (encoder.partOf loopHead inv target = encoder.partOf loopHead inv entry ∧ target ≠ loopHead) ∨
    (encoder.StartsBehind loopHead inv (encoder.partOf loopHead inv entry) target ∧
      (encoder.partOf loopHead inv target = .afterInv → source = inv)) ∨
    (encoder.partOf loopHead inv entry = .afterInv ∧ target = loopHead)

instance (entry source target : BasicBlock) :
    Decidable (encoder.KeepsToParts loopHead inv entry source target) :=
  inferInstanceAs (Decidable (_ ∨ _ ∨ _))

/-- What the encoding of a loop relies on.  The body goes on after the invariant block, no
part starts inside of a nested loop, and the edges keep to the parts. -/
structure LinkableLoop : Prop where
  invariant_mem : inv ∈ encoder.loopBody loopHead
  goes_on : ∃ bb ∈ encoder.loopBody loopHead,
    encoder.position loopHead inv < encoder.position loopHead bb
  starts : ∀ bb ∈ encoder.loopBody loopHead,
    (∀ other ∈ encoder.loopBody loopHead,
      encoder.partOf loopHead inv other = encoder.partOf loopHead inv bb →
        encoder.position loopHead bb ≤ encoder.position loopHead other) →
      encoder.IsEntry (encoder.loops.loopHeadDepth loopHead) bb
  links : ∀ entry ∈ encoder.loopBody loopHead,
    encoder.IsEntry (encoder.loops.loopHeadDepth loopHead) entry →
      ∀ source ∈ encoder.covered (encoder.loops.loopHeadDepth loopHead) entry,
        ∀ target ∈ encoder.loopBody loopHead,
          encoder.LeavesEntry (encoder.loops.loopHeadDepth loopHead) entry source target →
            encoder.KeepsToParts loopHead inv entry source target

/-- How a loop is split at its invariant block. -/
structure SplitAt (parts : LoopParts) : Prop where
  nodup : (encoder.loopBody loopHead).Nodup
  beforeInvariantBlock : parts.beforeInvariantBlock = inv
  mem_guard : ∀ bb, bb ∈ parts.loopGuardEvaluation ↔
    bb ∈ encoder.loopBody loopHead ∧ encoder.partOf loopHead inv bb = .guard
  mem_beforeInv : ∀ bb, bb ∈ parts.loopBodyBeforeInv ↔
    bb ∈ encoder.loopBody loopHead ∧ encoder.partOf loopHead inv bb = .beforeInv
  mem_afterInv : ∀ bb, bb ∈ parts.loopBodyAfterInv ↔
    bb ∈ encoder.loopBody loopHead ∧ encoder.partOf loopHead inv bb = .afterInv
  behind_guard : ∀ bb ∈ encoder.loopBody loopHead,
    encoder.StartsBehind loopHead inv .guard bb → bb = parts.afterGuardBlock
  behind_beforeInv : ∀ bb ∈ encoder.loopBody loopHead,
    encoder.StartsBehind loopHead inv .beforeInv bb → bb = parts.afterInvBlock

end Parts

variable {encoder : ProcedureEncoder Ty} {loopHead inv bb : BasicBlock}

/-- The guard ends behind the last exit block up to the invariant block. -/
theorem lt_afterGuardBlockPos_iff {body exitBlocks : List BasicBlock} (hnodup : body.Nodup) :
    body.idxOf bb < ((((body.take (1 + body.idxOf inv)).filter (· ∈ exitBlocks)).getLast?).bind
      fun guardSwitch => (body.findIdx? (· = guardSwitch)).map (· + 1)).getD 0 ↔
      ∃ exitBlock ∈ exitBlocks, exitBlock ∈ body ∧ body.idxOf bb ≤ body.idxOf exitBlock ∧
        body.idxOf exitBlock ≤ body.idxOf inv := by
  have hmem : ∀ exitBlock, exitBlock ∈ (body.take (1 + body.idxOf inv)).filter
      (· ∈ exitBlocks) ↔ exitBlock ∈ exitBlocks ∧ exitBlock ∈ body ∧
        body.idxOf exitBlock ≤ body.idxOf inv := by
    intro exitBlock
    rw [List.mem_filter, decide_eq_true_iff, and_comm]
    refine and_congr_right fun _ => ⟨fun htake => ?_, fun ⟨hin, hle⟩ => ?_⟩
    · have hin := List.mem_of_mem_take htake
      have hlt := (List.mem_take_iff_idxOf_lt hin).mp htake
      exact ⟨hin, by omega⟩
    · exact (List.mem_take_iff_idxOf_lt hin).mpr (by omega)
  cases hlast : ((body.take (1 + body.idxOf inv)).filter (· ∈ exitBlocks)).getLast? with
  | none =>
    rw [List.getLast?_eq_none_iff] at hlast
    simp only [hlast, List.not_mem_nil, false_iff] at hmem
    refine iff_of_false (Nat.not_lt_zero _) ?_
    rintro ⟨exitBlock, hexit, hin, -, hle⟩
    exact hmem exitBlock ⟨hexit, hin, hle⟩
  | some guardSwitch =>
    obtain ⟨hexit, hin, hle⟩ := (hmem guardSwitch).mp (List.mem_of_getLast? hlast)
    rw [Option.bind_some, findIdx?_eq_idxOf hin, Option.map_some, Option.getD_some, Nat.lt_succ_iff]
    refine ⟨fun hbefore => ⟨guardSwitch, hexit, hin, hbefore, hle⟩, ?_⟩
    rintro ⟨exitBlock, hexit', hin', hbefore, hle'⟩
    exact hbefore.trans (idxOf_le_getLast hnodup
      (List.filter_sublist.trans (List.take_sublist _ _)) hlast
      ((hmem exitBlock).mpr ⟨hexit', hin', hle'⟩))

theorem partOf_eq_guard_iff :
    encoder.partOf loopHead inv bb = .guard ↔ encoder.EvaluatesGuard loopHead inv bb := by
  rw [partOf]
  split
  · next h => exact iff_of_true rfl h
  · next h =>
      refine iff_of_false ?_ h
      split <;> exact LoopPart.noConfusion

theorem partOf_eq_afterInv_iff : encoder.partOf loopHead inv bb = .afterInv ↔
    encoder.position loopHead inv < encoder.position loopHead bb := by
  rw [partOf]
  split
  · next h =>
      obtain ⟨exitBlock, -, -, hbefore, hle⟩ := h
      exact iff_of_false LoopPart.noConfusion (by omega)
  · split
    · next hle => exact iff_of_false LoopPart.noConfusion (by omega)
    · next hgt => exact iff_of_true rfl (by omega)

theorem partOf_eq_beforeInv_iff : encoder.partOf loopHead inv bb = .beforeInv ↔
    ¬ encoder.EvaluatesGuard loopHead inv bb ∧
      encoder.position loopHead bb ≤ encoder.position loopHead inv := by
  rw [← partOf_eq_guard_iff, ← Nat.not_lt, ← partOf_eq_afterInv_iff]
  cases encoder.partOf loopHead inv bb <;> simp

/-- The cuts of the body are those that the positions of the blocks tell. -/
theorem splitAt_of_cuts (hnodup : (encoder.loopBody loopHead).Nodup) {guardEnd : Nat}
    {afterGuardBlock afterInvBlock : BasicBlock}
    (hguard : ∀ bb, encoder.position loopHead bb < guardEnd ↔
      encoder.EvaluatesGuard loopHead inv bb)
    (hafterGuard : (encoder.loopBody loopHead)[guardEnd]? = some afterGuardBlock)
    (hafterInv : (encoder.loopBody loopHead)[1 + encoder.position loopHead inv]? =
      some afterInvBlock) :
    encoder.SplitAt loopHead inv {
      beforeInvariantBlock := inv
      loopGuardEvaluation := (encoder.loopBody loopHead).take guardEnd
      loopBodyBeforeInv :=
        ((encoder.loopBody loopHead).take (1 + encoder.position loopHead inv)).drop guardEnd
      loopBodyAfterInv :=
        (encoder.loopBody loopHead).drop (1 + encoder.position loopHead inv)
      afterGuardBlock := afterGuardBlock
      afterInvBlock := afterInvBlock } := by
  have hat : ∀ bb ∈ encoder.loopBody loopHead,
      (encoder.loopBody loopHead)[encoder.position loopHead bb]? = some bb :=
    fun bb hbb => List.getElem?_idxOf hbb
  constructor
  · exact hnodup
  · rfl
  · intro bb
    rw [mem_take_iff, partOf_eq_guard_iff, ← hguard]
    rfl
  · intro bb
    rw [mem_drop_iff (hnodup.sublist (List.take_sublist _ _)), partOf_eq_beforeInv_iff, ← hguard,
      Nat.not_lt]
    constructor
    · rintro ⟨htake, hle⟩
      rw [(List.take_prefix _ _).idxOf_eq_of_mem htake] at hle
      obtain ⟨hbody, hlt⟩ := mem_take_iff.mp htake
      exact ⟨hbody, hle, Nat.lt_one_add_iff.mp hlt⟩
    · rintro ⟨hbody, hle, hlt⟩
      have htake := mem_take_iff.mpr ⟨hbody, Nat.lt_one_add_iff.mpr hlt⟩
      refine ⟨htake, ?_⟩
      rw [(List.take_prefix _ _).idxOf_eq_of_mem htake]
      exact hle
  · intro bb
    rw [mem_drop_iff hnodup, partOf_eq_afterInv_iff, Nat.add_comm 1]
    rfl
  · rintro bb hbb ⟨hne, last, hlast, hpart, hposition⟩
    rw [Ne, partOf_eq_guard_iff, ← hguard] at hne
    rw [partOf_eq_guard_iff, ← hguard] at hpart
    have hend : guardEnd = encoder.position loopHead bb := by omega
    rw [hend, hat bb hbb, Option.some_inj] at hafterGuard
    exact hafterGuard
  · rintro bb hbb ⟨hne, last, hlast, hpart, hposition⟩
    rw [Ne, partOf_eq_beforeInv_iff, ← hguard] at hne
    rw [partOf_eq_beforeInv_iff, ← hguard] at hpart
    have hend : 1 + encoder.position loopHead inv = encoder.position loopHead bb := by omega
    rw [hend, hat bb hbb, Option.some_inj] at hafterInv
    exact hafterInv

/-- A loop can be split at an unconditional block that is not the last one of its body. -/
theorem exists_splitLoop (hnodup : (encoder.loopBody loopHead).Nodup)
    (hhead : encoder.loops.isLoopHead loopHead = true)
    (hinv : encoder.invariantBlock loopHead = some inv)
    (hcond : encoder.loops.isConditionalBranch loopHead inv = false)
    (hmem : inv ∈ encoder.loopBody loopHead)
    (hgoes : ∃ bb ∈ encoder.loopBody loopHead,
      encoder.position loopHead inv < encoder.position loopHead bb) :
    ∃ parts, encoder.splitLoop loopHead = .ok parts ∧ encoder.SplitAt loopHead inv parts := by
  have hguard : ∀ bb, _ ↔ encoder.EvaluatesGuard loopHead inv bb :=
    fun bb => lt_afterGuardBlockPos_iff hnodup
  have hle := afterGuardBlockPos_le (encoder.loopBody loopHead)
    (encoder.loops.getLoopExitBlocks loopHead) (1 + (encoder.loopBody loopHead).idxOf inv)
  obtain ⟨bb, hbb, hlt⟩ := hgoes
  have hlength : 1 + (encoder.loopBody loopHead).idxOf inv <
      (encoder.loopBody loopHead).length := by
    have hlast := List.idxOf_lt_length_of_mem hbb
    simp only [position] at hlt
    omega
  rw [invariantBlock] at hinv
  rw [splitLoop, hhead]
  simp only [Stop.assert, if_true, hinv, Stop.orPanic, findIdx?_eq_idxOf hmem, bind, Except.bind,
    pure, Except.pure, hcond, Bool.false_eq_true, if_false]
  generalize Option.getD _ 0 = guardEnd at hguard hle ⊢
  have hafterGuard := List.getElem?_eq_getElem (hle.trans_lt hlength)
  have hafterInv := List.getElem?_eq_getElem hlength
  rw [hafterGuard, hafterInv]
  exact ⟨_, rfl, splitAt_of_cuts hnodup hguard hafterGuard hafterInv⟩

end ProcedureEncoder

end Prusti.Encoder.Procedures

/-
The encoding of a loop: the copies of the parts of its body are linked in a row, and only
edges that leave the loop stay unresolved.
-/
import Prusti.Encoder.EncodedGroups

namespace Prusti.Encoder.Procedures

open Prusti.Lib Prusti.Mir CfgMethod

universe u

/-- The order of changes to different blocks does not matter. -/
theorem setSuccessor_comm (method : CfgMethod) {index index' : Nat}
    (successor successor' : Successor) (h : index ≠ index') :
    (method.setSuccessor index successor).setSuccessor index' successor' =
      (method.setSuccessor index' successor').setSuccessor index successor := by
  have hblocks : ((method.setSuccessor index successor).setSuccessor index'
      successor').basicBlocks =
        ((method.setSuccessor index' successor').setSuccessor index successor).basicBlocks := by
    apply List.ext_getElem?
    intro position
    simp only [getElem?_setSuccessor]
    by_cases hindex : index = position
    · have hindex' : index' ≠ position := fun heq => h (hindex.trans heq.symm)
      simp only [if_pos hindex, if_neg hindex']
    · simp only [if_neg hindex]
  exact congrArg CfgMethod.mk hblocks

theorem encodeUnresolvedEdges_setSuccessor (resolver : BasicBlock → Option Nat)
    (method : CfgMethod) {pending : List (Nat × BasicBlock)} {index : Nat}
    (successor : Successor) (h : ∀ edge ∈ pending, edge.1 ≠ index) :
    encodeUnresolvedEdges resolver (method.setSuccessor index successor) pending =
      ((encodeUnresolvedEdges resolver method pending).1.setSuccessor index successor,
        (encodeUnresolvedEdges resolver method pending).2) := by
  induction pending generalizing method with
  | nil => rfl
  | cons edge pending ih =>
    obtain ⟨currBlock, target⟩ := edge
    have hne : currBlock ≠ index := h _ List.mem_cons_self
    have hrest := fun edge hedge => h edge (List.mem_cons_of_mem _ hedge)
    rw [encodeUnresolvedEdges, encodeUnresolvedEdges]
    cases resolver target with
    | some targetBlock => simp only [setSuccessor_comm _ _ _ hne.symm, ih _ hrest]
    | none => simp only [ih _ hrest]

namespace ProcedureEncoder

variable {Ty : Type u} {encoder : ProcedureEncoder Ty} {loopHead : BasicBlock}
  {parts : LoopParts}

/-- The guard ends at an exit block before the end of the invariant block. -/
theorem afterGuardBlockPos_le (body exitBlocks : List BasicBlock) (past : Nat) :
    ((((body.take past).filter (· ∈ exitBlocks)).getLast?).bind fun guardSwitch =>
      (body.findIdx? (· = guardSwitch)).map (· + 1)).getD 0 ≤ past := by
  cases hswitch : ((body.take past).filter (· ∈ exitBlocks)).getLast? with
  | none => exact Nat.zero_le past
  | some guardSwitch =>
    have hmem := List.mem_of_mem_filter (List.mem_of_getLast? hswitch)
    obtain ⟨index, hindex, hat⟩ := List.getElem_of_mem hmem
    rw [Option.bind_some]
    cases hfound : body.findIdx? (· = guardSwitch) with
    | none => exact Nat.zero_le past
    | some position =>
      obtain ⟨hlt, -, hfirst⟩ := List.findIdx?_eq_some_iff_getElem.mp hfound
      rw [List.length_take] at hindex
      rw [List.getElem_take] at hat
      have hle : position ≤ index := by
        by_contra hgt
        exact hfirst index (by omega) (decide_eq_true hat)
      simp only [Option.map_some, Option.getD_some]
      omega

/-- How a loop is split. -/
structure Split (encoder : ProcedureEncoder Ty) (loopHead : BasicBlock) (parts : LoopParts) :
    Prop where
  isLoopHead : encoder.loops.isLoopHead loopHead = true
  invariantBlock : encoder.invariantBlock loopHead = some parts.beforeInvariantBlock
  loopBody : encoder.loopBody loopHead =
    parts.loopGuardEvaluation ++ (parts.loopBodyBeforeInv ++ parts.loopBodyAfterInv)
  afterGuardBlock : (parts.loopBodyBeforeInv ++ parts.loopBodyAfterInv).head? =
    some parts.afterGuardBlock
  afterInvBlock : parts.loopBodyAfterInv.head? = some parts.afterInvBlock
  beforeInv : parts.loopGuardEvaluation ++ parts.loopBodyBeforeInv ≠ []

theorem split_of_splitLoop (h : encoder.splitLoop loopHead = .ok parts) :
    Split encoder loopHead parts := by
  rw [splitLoop] at h
  simp only [bind_eq_ok_iff, Stop.assert_eq_ok_iff, Stop.orPanic_eq_ok_iff] at h
  obtain ⟨-, hhead, inv, hinv, position, hposition, afterGuard, hafterGuard, afterInv,
    hafterInv, h⟩ := h
  have hle := afterGuardBlockPos_le (encoder.loopBody loopHead)
    (encoder.loops.getLoopExitBlocks loopHead) (1 + position)
  generalize Option.getD _ 0 = afterGuardPos at hle hafterGuard h
  split at h
  · cases h
  rw [pure_eq_ok_iff] at h
  subst h
  generalize hbody : encoder.loopBody loopHead = body at hposition hafterGuard hafterInv
  have hlt : afterGuardPos < body.length := (List.getElem?_eq_some_iff.mp hafterGuard).1
  have hafter : (body.take (1 + position)).drop afterGuardPos ++ body.drop (1 + position) =
      body.drop afterGuardPos := by
    rw [← List.drop_append_of_le_length, List.take_append_drop]
    rw [List.length_take]
    omega
  have hbefore : body.take afterGuardPos ++ (body.take (1 + position)).drop afterGuardPos =
      body.take (1 + position) := by
    have htake : body.take afterGuardPos = (body.take (1 + position)).take afterGuardPos := by
      rw [List.take_take, Nat.min_eq_left hle]
    rw [htake, List.take_append_drop]
  refine ⟨hhead, hinv, ?_, ?_, ?_, ?_⟩
  · rw [hbody, hafter, List.take_append_drop]
  · rw [hafter, List.head?_drop, hafterGuard]
  · rw [List.head?_drop, hafterInv]
  · rw [hbefore]
    intro hnil
    have hlength := congrArg List.length hnil
    rw [List.length_take, List.length_nil] at hlength
    omega

/-- What the edges inside of a loop must satisfy. -/
structure LoopLinks (encoder : ProcedureEncoder Ty) (loopHead : BasicBlock)
    (parts : LoopParts) : Prop where
  guard : encoder.WellGrouped (encoder.loops.loopHeadDepth loopHead) parts.loopGuardEvaluation
  beforeInv : encoder.WellGrouped (encoder.loops.loopHeadDepth loopHead) parts.loopBodyBeforeInv
  afterInv : encoder.WellGrouped (encoder.loops.loopHeadDepth loopHead) parts.loopBodyAfterInv
  fromGuard : ∀ source target, encoder.LeavesGroup (encoder.loops.loopHeadDepth loopHead)
    parts.loopGuardEvaluation source target → target ∈ encoder.loopBody loopHead →
      target = parts.afterGuardBlock ∧
        (parts.loopBodyBeforeInv = [] → source = parts.beforeInvariantBlock)
  fromBeforeInv : ∀ source target, encoder.LeavesGroup (encoder.loops.loopHeadDepth loopHead)
    parts.loopBodyBeforeInv source target → target ∈ encoder.loopBody loopHead →
      target = parts.afterInvBlock ∧ source = parts.beforeInvariantBlock
  fromAfterInv : ∀ source target, encoder.LeavesGroup (encoder.loops.loopHeadDepth loopHead)
    parts.loopBodyAfterInv source target → target ∈ encoder.loopBody loopHead → target = loopHead
  head : (encoder.loopBody loopHead).head? = some loopHead
  nested : ∀ entry ∈ encoder.loopBody loopHead,
    encoder.IsEntry (encoder.loops.loopHeadDepth loopHead) entry →
      encoder.covered (encoder.loops.loopHeadDepth loopHead) entry ⊆ encoder.loopBody loopHead

/-- The heads of the parts of a loop. -/
theorem followingBlock_heads (start firstG firstB1 invPre lastB2 lastG lastB1 endBody) :
    let heads := [some start, firstG, firstB1, some invPre, lastB2, lastG, lastB1, some endBody]
    followingBlock heads 1 = .ok ((firstG <|> firstB1).getD invPre) ∧
    followingBlock heads 2 = .ok (firstB1.getD invPre) ∧
    followingBlock heads 3 = .ok invPre ∧
    followingBlock heads 4 = .ok ((lastB2 <|> lastG <|> lastB1).getD endBody) ∧
    followingBlock heads 5 = .ok ((lastG <|> lastB1).getD endBody) ∧
    followingBlock heads 6 = .ok (lastB1.getD endBody) ∧
    followingBlock heads 7 = .ok endBody := by
  cases firstG <;> cases firstB1 <;> cases lastB2 <;> cases lastG <;> cases lastB1 <;>
    exact ⟨rfl, rfl, rfl, rfl, rfl, rfl, rfl⟩

/-- The groups of the encoding of a loop, one after the other. -/
structure LoopGroups where
  firstG : Encoded (Option Nat)
  firstB1 : Encoded (Option Nat)
  lastB2 : Encoded (Option Nat)
  lastG : Encoded (Option Nat)
  lastB1 : Encoded (Option Nat)

namespace LoopGroups

variable (groups : LoopGroups)

/-- The position of the block before the invariant.  The one after it comes next. -/
def invPreBlock : Nat := groups.firstB1.method.basicBlocks.length

def endBodyBlock : Nat := groups.lastB1.method.basicBlocks.length

/-- The block that the start leads to. -/
abbrev afterStart : Nat := (groups.firstG.head <|> groups.firstB1.head).getD groups.invPreBlock

/-- The block that the one after the invariant leads to. -/
abbrev afterInvariant : Nat :=
  (groups.lastB2.head <|> groups.lastG.head <|> groups.lastB1.head).getD groups.endBodyBlock

def unresolvedEdges : List (Nat × BasicBlock) :=
  groups.firstG.unresolvedEdges ++ (groups.firstB1.unresolvedEdges ++
    (groups.lastB2.unresolvedEdges ++ (groups.lastG.unresolvedEdges ++
      groups.lastB1.unresolvedEdges)))

end LoopGroups

/-- The blocks of the encoding of a loop before they are linked. -/
structure LoopBlocks (encoder : ProcedureEncoder Ty) (loopHead : BasicBlock)
    (parts : LoopParts) (method : CfgMethod) (unresolved : List (Nat × BasicBlock))
    (groups : LoopGroups) (blocks : CfgMethod) : Prop where
  linking : Linking encoder.procedure.encodedTargets encoder.invariantBlock blocks
    (unresolved ++ groups.unresolvedEdges)
  keeps : Keeps method blocks
  startBlock : blocks.basicBlocks[method.basicBlocks.length]? =
    some ⟨.loopStart loopHead, .undefined⟩
  invPreBlock : blocks.basicBlocks[groups.invPreBlock]? =
    some ⟨.invPre loopHead, .goto (groups.invPreBlock + 1)⟩
  invPostBlock : blocks.basicBlocks[groups.invPreBlock + 1]? = some ⟨.invPost loopHead, .undefined⟩
  endBodyBlock : blocks.basicBlocks[groups.endBodyBlock]? =
    some ⟨.endBody loopHead (groups.invPreBlock + 1), .undefined⟩
  firstG : encoder.GroupCopy blocks (encoder.loops.loopHeadDepth loopHead)
    parts.loopGuardEvaluation (method.basicBlocks.length + 1) groups.firstG
  firstB1 : encoder.GroupCopy blocks (encoder.loops.loopHeadDepth loopHead)
    parts.loopBodyBeforeInv groups.firstG.method.basicBlocks.length groups.firstB1
  lastB2 : encoder.GroupCopy blocks (encoder.loops.loopHeadDepth loopHead)
    parts.loopBodyAfterInv (groups.invPreBlock + 2) groups.lastB2
  lastG : encoder.GroupCopy blocks (encoder.loops.loopHeadDepth loopHead)
    parts.loopGuardEvaluation groups.lastB2.method.basicBlocks.length groups.lastG
  lastB1 : encoder.GroupCopy blocks (encoder.loops.loopHeadDepth loopHead)
    parts.loopBodyBeforeInv groups.lastG.method.basicBlocks.length groups.lastB1
  firstG_le : method.basicBlocks.length + 1 ≤ groups.firstG.method.basicBlocks.length
  firstB1_le : groups.firstG.method.basicBlocks.length ≤ groups.invPreBlock
  lastB2_le : groups.invPreBlock + 2 ≤ groups.lastB2.method.basicBlocks.length
  lastG_le : groups.lastB2.method.basicBlocks.length ≤ groups.lastG.method.basicBlocks.length
  lastB1_le : groups.lastG.method.basicBlocks.length ≤ groups.endBodyBlock

variable {method : CfgMethod} {unresolved : List (Nat × BasicBlock)}
  {encodeLoop : CfgMethod → BasicBlock → Except (Stop LoopEncoderError) (Encoded Nat)}

/-- The method with the blocks before and after the invariant. -/
def addInvariant (method : CfgMethod) (loopHead : BasicBlock) : CfgMethod :=
  ((method.addBlock (.invPre loopHead)).1.addBlock (.invPost loopHead)).1.setSuccessor
    method.basicBlocks.length (.goto (method.basicBlocks.length + 1))

section

variable (method : CfgMethod) (loopHead : BasicBlock)

theorem length_addInvariant :
    (addInvariant method loopHead).basicBlocks.length = method.basicBlocks.length + 2 := by
  simp [addInvariant]

theorem getElem?_addInvariant (index : Nat) :
    (addInvariant method loopHead).basicBlocks[index]? =
      if index = method.basicBlocks.length then
        some ⟨.invPre loopHead, .goto (method.basicBlocks.length + 1)⟩
      else if index = method.basicBlocks.length + 1 then some ⟨.invPost loopHead, .undefined⟩
      else method.basicBlocks[index]? := by
  rw [addInvariant, getElem?_setSuccessor, getElem?_addBlock, getElem?_addBlock, length_addBlock]
  by_cases hpre : index = method.basicBlocks.length
  · simp [hpre]
  · by_cases hpost : index = method.basicBlocks.length + 1
    · simp [hpost]
    · simp [hpre, hpost, Ne.symm hpre]

theorem getElem?_invPre :
    (addInvariant method loopHead).basicBlocks[method.basicBlocks.length]? =
      some ⟨.invPre loopHead, .goto (method.basicBlocks.length + 1)⟩ := by
  rw [getElem?_addInvariant, if_pos rfl]

theorem getElem?_invPost :
    (addInvariant method loopHead).basicBlocks[method.basicBlocks.length + 1]? =
      some ⟨.invPost loopHead, .undefined⟩ := by
  rw [getElem?_addInvariant, if_neg (by omega), if_pos rfl]

theorem keeps_addInvariant : Keeps method (addInvariant method loopHead) := by
  intro index hindex
  rw [getElem?_addInvariant, if_neg (by omega), if_neg (by omega)]

end

theorem linking_addInvariant
    (h : Linking encoder.procedure.encodedTargets encoder.invariantBlock method unresolved)
    (loopHead : BasicBlock) :
    Linking encoder.procedure.encodedTargets encoder.invariantBlock
      (addInvariant method loopHead) unresolved := by
  have hblocks := (h.addBlock (.invPre loopHead) (fun _ heq => nomatch heq)).addBlock
    (.invPost loopHead) (fun _ heq => nomatch heq)
  refine @Linking.setSuccessor (.invPre loopHead) _ _ _ _ hblocks _ _ ?_ ?_ ?_ ?_
  · rw [getElem?_addBlock, if_neg (by simp), getElem?_addBlock, if_pos rfl]
  · exact fun _ heq => nomatch heq
  · exact fun _ _ heq => nomatch heq
  · intro next hnext
    rw [Successor.targets, List.mem_singleton] at hnext
    exact .inr (by omega)

/-- The parts of a loop are encoded in a row. -/
theorem exists_loopBlocks
    (h : Linking encoder.procedure.encodedTargets encoder.invariantBlock method unresolved)
    (hsplit : Split encoder loopHead parts) (hlinks : LoopLinks encoder loopHead parts)
    (hbody : ∀ bb ∈ encoder.loopBody loopHead,
      encoder.Encodable encodeLoop (encoder.loops.loopHeadDepth loopHead) bb) :
    let encodeGroup := fun method blocks => encoder.encodeBlocksGroup encodeLoop method blocks
      (encoder.loops.loopHeadDepth loopHead)
    ∃ groups : LoopGroups,
      encodeGroup (method.addBlock (.loopStart loopHead)).1 parts.loopGuardEvaluation =
        .ok groups.firstG ∧
      encodeGroup groups.firstG.method parts.loopBodyBeforeInv = .ok groups.firstB1 ∧
      encodeGroup (addInvariant groups.firstB1.method loopHead) parts.loopBodyAfterInv =
        .ok groups.lastB2 ∧
      encodeGroup groups.lastB2.method parts.loopGuardEvaluation = .ok groups.lastG ∧
      encodeGroup groups.lastG.method parts.loopBodyBeforeInv = .ok groups.lastB1 ∧
      LoopBlocks encoder loopHead parts method unresolved groups (groups.lastB1.method.addBlock
          (.endBody loopHead (groups.invPreBlock + 1))).1 := by
  rw [hsplit.loopBody] at hbody
  have hguard := fun bb hbb => hbody bb (List.mem_append_left _ hbb)
  have hbefore := fun bb hbb =>
    hbody bb (List.mem_append_right _ (List.mem_append_left _ hbb))
  have hafter := fun bb hbb =>
    hbody bb (List.mem_append_right _ (List.mem_append_right _ hbb))
  obtain ⟨firstG, hfirstG, hextG, hcopyG⟩ := encodeBlocksGroup_spec
    (h.addBlock (.loopStart loopHead) (fun _ heq => nomatch heq)) hlinks.guard hguard
  obtain ⟨firstB1, hfirstB1, hextB1, hcopyB1⟩ :=
    encodeBlocksGroup_spec hextG.linking hlinks.beforeInv hbefore
  obtain ⟨lastB2, hlastB2, hextB2, hcopyB2⟩ := encodeBlocksGroup_spec
    (linking_addInvariant hextB1.linking loopHead) hlinks.afterInv hafter
  obtain ⟨lastG, hlastG, hextG', hcopyG'⟩ :=
    encodeBlocksGroup_spec hextB2.linking hlinks.guard hguard
  obtain ⟨lastB1, hlastB1, hextB1', hcopyB1'⟩ :=
    encodeBlocksGroup_spec hextG'.linking hlinks.beforeInv hbefore
  refine ⟨⟨firstG, firstB1, lastB2, lastG, lastB1⟩, hfirstG, hfirstB1, hlastB2, hlastG, hlastB1, ?_⟩
  have hend := keeps_addBlock lastB1.method
    (.endBody loopHead (firstB1.method.basicBlocks.length + 1))
  have hlastG := hextB1'.keeps.trans hend
  have hlastB2 := hextG'.keeps.trans hlastG
  have hinv := hextB2.keeps.trans hlastB2
  have hfirstB1 := (keeps_addInvariant firstB1.method loopHead).trans hinv
  have hfirstG := hextB1.keeps.trans hfirstB1
  have hstart := hextG.keeps.trans hfirstG
  have hlength := length_addInvariant firstB1.method loopHead
  have hle := hextB2.length_le
  rw [length_addInvariant] at hle
  rw [length_addInvariant] at hcopyB2
  have hleG := hextG.length_le
  rw [length_addBlock] at hcopyG hleG
  constructor
  · have hlinking := hextB1'.linking.addBlock
      (.endBody loopHead (firstB1.method.basicBlocks.length + 1)) (fun _ heq => nomatch heq)
    simpa [LoopGroups.unresolvedEdges, LoopGroups.invPreBlock] using hlinking
  · exact (keeps_addBlock _ _).trans hstart
  · rw [LoopGroups.invPreBlock, hstart _ (by simp), getElem?_addBlock, if_pos rfl]
  · exact (hinv firstB1.method.basicBlocks.length (by omega)).trans
      (getElem?_invPre firstB1.method loopHead)
  · exact (hinv (firstB1.method.basicBlocks.length + 1) (by omega)).trans
      (getElem?_invPost firstB1.method loopHead)
  · rw [LoopGroups.endBodyBlock, getElem?_addBlock, if_pos rfl]
  · exact hcopyG.extend (.of_keeps hfirstG)
  · exact hcopyB1.extend (.of_keeps hfirstB1)
  · exact hcopyB2.extend (.of_keeps hlastB2)
  · exact hcopyG'.extend (.of_keeps hlastG)
  · exact hcopyB1'.extend (.of_keeps hend)
  · exact hleG
  · exact hextB1.length_le
  · exact hle
  · exact hextG'.length_le
  · exact hextB1'.length_le

/-- The links between the parts of a loop. -/
def linkLoop (loopHead : BasicBlock) (parts : LoopParts) (groups : LoopGroups)
    (startBlock : Nat) (method : CfgMethod) : Encoded Nat :=
  let method := method.setSuccessor startBlock (.goto groups.afterStart)
  let (method, fromFirstG) := encodeUnresolvedEdges
    (resolveOnly parts.afterGuardBlock (groups.firstB1.head.getD groups.invPreBlock)) method
    groups.firstG.unresolvedEdges
  let (method, fromFirstB1) := encodeUnresolvedEdges
    (resolveOnly parts.afterInvBlock groups.invPreBlock) method groups.firstB1.unresolvedEdges
  let method := method.setSuccessor (groups.invPreBlock + 1) (.goto groups.afterInvariant)
  let (method, fromLastB2) := encodeUnresolvedEdges
    (resolveOnly loopHead ((groups.lastG.head <|> groups.lastB1.head).getD groups.endBodyBlock))
    method groups.lastB2.unresolvedEdges
  let (method, fromLastG) := encodeUnresolvedEdges
    (resolveOnly parts.afterGuardBlock (groups.lastB1.head.getD groups.endBodyBlock)) method
    groups.lastG.unresolvedEdges
  let (method, fromLastB1) := encodeUnresolvedEdges
    (resolveOnly parts.afterInvBlock groups.endBodyBlock) method groups.lastB1.unresolvedEdges
  let method := method.setSuccessor groups.endBodyBlock .return
  ⟨method, startBlock, fromFirstG ++ fromFirstB1 ++ fromLastB2 ++ fromLastG ++ fromLastB1⟩

/-- The edges that leave a loop. -/
def LeavesLoop (encoder : ProcedureEncoder Ty) (loopHead source target : BasicBlock) : Prop :=
  source ∈ encoder.loopBody loopHead ∧ target ∈ encoder.procedure.encodedTargets source ∧
    target ∉ encoder.loopBody loopHead

theorem LoopLinks.leavesLoop (hlinks : LoopLinks encoder loopHead parts)
    {part : List BasicBlock} (hpart : part ⊆ encoder.loopBody loopHead)
    {source target : BasicBlock}
    (h : encoder.LeavesGroup (encoder.loops.loopHeadDepth loopHead) part source target)
    (hout : target ∉ encoder.loopBody loopHead) :
    LeavesLoop encoder loopHead source target := by
  obtain ⟨entry, hentry, hisEntry, ⟨hsource, htarget, -⟩, -⟩ := h
  exact ⟨hlinks.nested entry (hpart hentry) hisEntry hsource, htarget, hout⟩

theorem Split.subset_loopBody (hsplit : Split encoder loopHead parts) :
    parts.loopGuardEvaluation ⊆ encoder.loopBody loopHead ∧
      parts.loopBodyBeforeInv ⊆ encoder.loopBody loopHead ∧
        parts.loopBodyAfterInv ⊆ encoder.loopBody loopHead := by
  rw [hsplit.loopBody]
  refine ⟨List.subset_append_left _ _, ?_, ?_⟩
  · exact List.Subset.trans (List.subset_append_left _ _) (List.subset_append_right _ _)
  · exact List.Subset.trans (List.subset_append_right _ _) (List.subset_append_right _ _)

/-- The edges of a part that are still unresolved after it was linked leave the loop. -/
theorem LoopLinks.leavesLoop_of_mem_still (hlinks : LoopLinks encoder loopHead parts)
    {part : List BasicBlock} (hpart : part ⊆ encoder.loopBody loopHead)
    {blocks linking linked : CfgMethod} {first : Nat} {group : Encoded (Option Nat)}
    (hcopy : encoder.GroupCopy blocks (encoder.loops.loopHeadDepth loopHead) part first group)
    {next : BasicBlock} {nextBlock : Nat} {still : List (Nat × BasicBlock)}
    (hlink : encodeUnresolvedEdges (resolveOnly next nextBlock) linking
      group.unresolvedEdges = (linked, still))
    (hfrom : ∀ source target,
      encoder.LeavesGroup (encoder.loops.loopHeadDepth loopHead) part source target →
        target ∈ encoder.loopBody loopHead → target = next)
    {edge : Nat × BasicBlock} (hedge : edge ∈ still) :
    first ≤ edge.1 ∧ ∃ source, blocks.SourceAt edge.1 source edge.2 ∧
      LeavesLoop encoder loopHead source edge.2 := by
  obtain ⟨hne, hfirst, source, hsource, hleaves⟩ := hcopy.leaves_of_mem_still hlink hedge
  refine ⟨hfirst, source, hsource, hlinks.leavesLoop hpart hleaves ?_⟩
  exact fun hin => hne (hfrom source edge.2 hleaves hin)

section Copies

variable {linked : CfgMethod} {depth first first' : Nat} {guard beforeInv : Encoded (Option Nat)}

/-- The first block of a copy of the guard and the body before the invariant. -/
theorem serves_loopHead (hsplit : Split encoder loopHead parts)
    (hlinks : LoopLinks encoder loopHead parts)
    (hguard : encoder.GroupCopy linked depth parts.loopGuardEvaluation first guard)
    (hbefore : encoder.GroupCopy linked depth parts.loopBodyBeforeInv first' beforeInv)
    (hle : first ≤ first') (otherwise : Nat) :
    first ≤ (guard.head <|> beforeInv.head).getD otherwise ∧
      ∀ source, linked.Serves encoder.invariantBlock source loopHead
        ((guard.head <|> beforeInv.head).getD otherwise) := by
  have hhead := hlinks.head
  rw [hsplit.loopBody, ← List.append_assoc] at hhead
  have hne := hsplit.beforeInv
  cases hparts : parts.loopGuardEvaluation with
  | cons bb rest =>
    rw [hparts, List.cons_append, List.cons_append, List.head?_cons, Option.some_inj] at hhead
    subst hhead
    obtain ⟨index, hindex, hfirst, hserves⟩ := hguard.head_some bb (by rw [hparts, List.head?_cons])
    rw [hindex]
    exact ⟨hfirst, hserves⟩
  | nil =>
    rw [hguard.head_none hparts]
    cases hbody : parts.loopBodyBeforeInv with
    | nil =>
      rw [hparts, hbody] at hne
      exact absurd rfl hne
    | cons bb rest =>
      rw [hparts, hbody, List.nil_append, List.cons_append, List.head?_cons,
        Option.some_inj] at hhead
      subst hhead
      obtain ⟨index, hindex, hfirst, hserves⟩ :=
        hbefore.head_some bb (by rw [hbody, List.head?_cons])
      rw [hindex]
      exact ⟨hle.trans hfirst, hserves⟩

theorem le_afterGuard
    (hbefore : encoder.GroupCopy linked depth parts.loopBodyBeforeInv first beforeInv)
    {next : Nat} (hle : first ≤ next) : first ≤ beforeInv.head.getD next := by
  cases hbody : parts.loopBodyBeforeInv with
  | nil => rwa [hbefore.head_none hbody]
  | cons bb rest =>
    obtain ⟨index, hindex, hfirst, -⟩ := hbefore.head_some bb (by rw [hbody, List.head?_cons])
    rwa [hindex]

/-- What follows a copy of the guard: a copy of the body before the invariant, unless that
is empty. -/
theorem serves_afterGuard (hsplit : Split encoder loopHead parts)
    (hbefore : encoder.GroupCopy linked depth parts.loopBodyBeforeInv first beforeInv)
    {next : Nat} {source : BasicBlock}
    (hnext : parts.loopBodyBeforeInv = [] →
      linked.Serves encoder.invariantBlock source parts.afterInvBlock next) :
    linked.Serves encoder.invariantBlock source parts.afterGuardBlock
      (beforeInv.head.getD next) := by
  have hafter := hsplit.afterGuardBlock
  cases hbody : parts.loopBodyBeforeInv with
  | nil =>
    rw [hbody, List.nil_append, hsplit.afterInvBlock, Option.some_inj] at hafter
    rw [hbefore.head_none hbody, ← hafter]
    exact hnext hbody
  | cons bb rest =>
    rw [hbody, List.cons_append, List.head?_cons, Option.some_inj] at hafter
    obtain ⟨index, hindex, -, hserves⟩ := hbefore.head_some bb (by rw [hbody, List.head?_cons])
    rw [hindex, ← hafter]
    exact hserves source

end Copies

namespace LoopBlocks

variable {groups : LoopGroups} {blocks : CfgMethod}

/-- The block before the invariant leads on to what comes after it, and so does the end of
the loop body when the walk comes from the invariant. -/
theorem serves_afterInv (h : LoopBlocks encoder loopHead parts method unresolved groups blocks)
    (hsplit : Split encoder loopHead parts) {linked : CfgMethod} (hext : Extends blocks linked)
    (hpost : linked.following (groups.invPreBlock + 1) = [groups.afterInvariant]) :
    (∀ source, linked.Serves encoder.invariantBlock source parts.afterInvBlock
      groups.invPreBlock) ∧
    linked.Serves encoder.invariantBlock parts.beforeInvariantBlock parts.afterInvBlock
      groups.endBodyBlock := by
  obtain ⟨index, hindex, -, hserves⟩ := h.lastB2.head_some _ hsplit.afterInvBlock
  have hafter : ∀ source, linked.Serves encoder.invariantBlock source parts.afterInvBlock
      (groups.invPreBlock + 1) := by
    intro source
    apply Serves.step (hext.originAt (originAt_eq_some_iff.mpr ⟨_, h.invPostBlock⟩))
      (fun _ heq => nomatch heq) _ ((hserves source).extend hext)
    rw [hpost, LoopGroups.afterInvariant, hindex]
    exact List.mem_singleton_self index
  constructor
  · intro source
    apply Serves.step (hext.originAt (originAt_eq_some_iff.mpr ⟨_, h.invPreBlock⟩))
      (fun _ heq => nomatch heq) _ (hafter source)
    apply hext.following
    rw [following_eq h.invPreBlock]
    exact List.mem_singleton_self _
  · obtain ⟨last, hlast⟩ := hafter parts.beforeInvariantBlock
    exact ⟨last, .restart (hext.originAt (originAt_eq_some_iff.mpr ⟨_, h.endBodyBlock⟩))
      hsplit.invariantBlock hlast⟩

/-- The method after the start and the block after the invariant got their successors. -/
def linkStart (groups : LoopGroups) (startBlock : Nat) (blocks : CfgMethod) : CfgMethod :=
  (blocks.setSuccessor startBlock (.goto groups.afterStart)).setSuccessor
      (groups.invPreBlock + 1) (.goto groups.afterInvariant)

section

variable (h : LoopBlocks encoder loopHead parts method unresolved groups blocks)
  (hsplit : Split encoder loopHead parts) (hlinks : LoopLinks encoder loopHead parts)

include h hsplit hlinks

theorem linkStart_spec :
    let linked := linkStart groups method.basicBlocks.length blocks
    Linking encoder.procedure.encodedTargets encoder.invariantBlock linked
        (unresolved ++ groups.unresolvedEdges) ∧
      Extends blocks linked ∧
      linked.following (groups.invPreBlock + 1) = [groups.afterInvariant] ∧
      (∀ source, linked.Serves encoder.invariantBlock source loopHead
        method.basicBlocks.length) ∧
      ∀ index, index ≠ method.basicBlocks.length → index ≠ groups.invPreBlock + 1 →
        linked.basicBlocks[index]? = blocks.basicBlocks[index]? := by
  have hle1 := h.firstG_le
  have hle2 := h.firstB1_le
  have hle3 := h.lastB2_le
  obtain ⟨hheadLe, hheadServes⟩ := serves_loopHead hsplit hlinks h.firstG h.firstB1 hle1
    groups.invPreBlock
  obtain ⟨index, hindex, hafterLe, -⟩ := h.lastB2.head_some _ hsplit.afterInvBlock
  rw [linkStart, LoopGroups.afterStart, LoopGroups.afterInvariant, hindex]
  generalize (groups.firstG.head <|> groups.firstB1.head).getD groups.invPreBlock = head
    at hheadLe hheadServes
  have hpost : (blocks.setSuccessor method.basicBlocks.length (.goto head)).basicBlocks[
      groups.invPreBlock + 1]? = some ⟨.invPost loopHead, .undefined⟩ := by
    rw [getElem?_setSuccessor_ne _ (by omega), h.invPostBlock]
  have hext := (Extends.setSuccessor (.goto head) h.startBlock).trans
    (Extends.setSuccessor (.goto index) hpost)
  have hforward : ∀ {source target : Nat}, source < target →
      ∀ next ∈ (Successor.goto target).targets, next = returnCfgBlock ∨ source < next := by
    intro source target hlt next hnext
    rw [Successor.targets, List.mem_singleton] at hnext
    exact .inr (hnext ▸ hlt)
  refine ⟨?_, hext, ?_, ?_, ?_⟩
  · have hstart := h.linking.setSuccessor h.startBlock (fun _ heq => by cases heq)
      (fun _ _ heq => by cases heq) (hforward hheadLe)
    exact hstart.setSuccessor hpost (fun _ heq => by cases heq) (fun _ _ heq => by cases heq)
      (hforward hafterLe)
  · refine @following_eq _ _ ⟨.invPost loopHead, .goto index⟩ ?_
    rw [getElem?_setSuccessor, if_pos rfl, hpost]
    rfl
  · intro source
    apply Serves.step (hext.originAt (originAt_eq_some_iff.mpr ⟨_, h.startBlock⟩))
      (fun _ heq => by cases heq) _ ((hheadServes source).extend hext)
    have hnext : (blocks.setSuccessor method.basicBlocks.length (.goto head)).following
        method.basicBlocks.length = [head] := by
      refine @following_eq _ _ ⟨.loopStart loopHead, .goto head⟩ ?_
      rw [getElem?_setSuccessor, if_pos rfl, h.startBlock]
      rfl
    apply (Extends.setSuccessor (.goto index) hpost).following
    rw [hnext]
    exact List.mem_singleton_self head
  · intro position hstart hpost'
    rw [getElem?_setSuccessor_ne _ (Ne.symm hpost'), getElem?_setSuccessor_ne _ (Ne.symm hstart)]

/-- The parts of a loop are linked so that only the edges that leave the loop remain. -/
theorem linkLoop_spec :
    let encoded := linkLoop loopHead parts groups method.basicBlocks.length blocks
    (∀ source, encoded.method.Serves encoder.invariantBlock source loopHead encoded.head) ∧
      Extension encoder.procedure.encodedTargets encoder.invariantBlock method unresolved
        (LeavesLoop encoder loopHead) encoded.method encoded.unresolvedEdges := by
  have hle1 := h.firstG_le
  have hle2 := h.firstB1_le
  have hle3 := h.lastB2_le
  have hle4 := h.lastG_le
  have hle5 := h.lastB1_le
  obtain ⟨hlinking, hext, hpost, hstart, hsame⟩ := h.linkStart_spec hsplit hlinks
  obtain ⟨hpre, hend⟩ := h.serves_afterInv hsplit hext hpost
  rw [linkLoop]
  rcases h1 : encodeUnresolvedEdges _ _ groups.firstG.unresolvedEdges with ⟨method1, still1⟩
  dsimp only
  rcases h2 : encodeUnresolvedEdges _ _ groups.firstB1.unresolvedEdges with ⟨method2, still2⟩
  dsimp only
  rcases h3 : encodeUnresolvedEdges _ _ groups.lastB2.unresolvedEdges with ⟨method3, still3⟩
  dsimp only
  rcases h4 : encodeUnresolvedEdges _ _ groups.lastG.unresolvedEdges with ⟨method4, still4⟩
  dsimp only
  rcases h5 : encodeUnresolvedEdges _ _ groups.lastB1.unresolvedEdges with ⟨method5, still5⟩
  dsimp only
  -- the block after the invariant may as well be linked before the first copies are
  have hne1 : ∀ edge ∈ groups.firstG.unresolvedEdges, edge.1 ≠ groups.invPreBlock + 1 := by
    intro edge hedge
    have hrange := h.firstG.range edge hedge
    omega
  have hne2 : ∀ edge ∈ groups.firstB1.unresolvedEdges, edge.1 ≠ groups.invPreBlock + 1 := by
    intro edge hedge
    have hrange := (h.firstB1.range edge hedge).2
    exact Nat.ne_of_lt (Nat.lt_succ_of_lt hrange)
  have h1' := encodeUnresolvedEdges_setSuccessor
    (resolveOnly parts.afterGuardBlock (groups.firstB1.head.getD groups.invPreBlock))
    (blocks.setSuccessor method.basicBlocks.length (.goto groups.afterStart))
    (.goto groups.afterInvariant) hne1
  have h2' := encodeUnresolvedEdges_setSuccessor
    (resolveOnly parts.afterInvBlock groups.invPreBlock) method1 (.goto groups.afterInvariant) hne2
  rw [h1] at h1'
  rw [h2] at h2'
  have hguardIn : parts.afterGuardBlock ∈ encoder.loopBody loopHead := by
    rw [hsplit.loopBody]
    exact List.mem_append_right _ (List.mem_of_head? hsplit.afterGuardBlock)
  have hinvIn : parts.afterInvBlock ∈ encoder.loopBody loopHead := by
    rw [hsplit.loopBody]
    exact List.mem_append_right _ (List.mem_append_right _ (List.mem_of_head? hsplit.afterInvBlock))
  rw [LoopGroups.unresolvedEdges] at hlinking
  obtain ⟨hlinking1, hext1, hsame1⟩ := (h.firstG.extend hext).link hlinking h1'
    (le_afterGuard h.firstB1 hle2)
    (fun source _ => serves_afterGuard hsplit (h.firstB1.extend hext) fun _ => hpre source)
  have hto1 := hext.trans hext1
  rw [← List.append_assoc] at hlinking1
  obtain ⟨hlinking2, hext2, hsame2⟩ := (h.firstB1.extend hto1).link hlinking1 h2' le_rfl
    (fun source _ => (hpre source).extend hext1)
  have hto2 := hto1.trans hext2
  rw [← List.append_assoc] at hlinking2
  obtain ⟨hheadLe, hheadServes⟩ := serves_loopHead hsplit hlinks (h.lastG.extend hto2)
    (h.lastB1.extend hto2) hle4 groups.endBodyBlock
  obtain ⟨hlinking3, hext3, hsame3⟩ := (h.lastB2.extend hto2).link hlinking2 h3 hheadLe
    (fun source _ => hheadServes source)
  have hto3 := hto2.trans hext3
  rw [← List.append_assoc] at hlinking3
  -- the last copies end at the end of the loop body, where only the invariant block may go on
  have hend3 := ((hend.extend hext1).extend hext2).extend hext3
  obtain ⟨hlinking4, hext4, hsame4⟩ := (h.lastG.extend hto3).link hlinking3 h4
    (le_afterGuard h.lastB1 hle5) (by
      intro source hleaves
      obtain ⟨-, hfrom⟩ := hlinks.fromGuard source _ hleaves hguardIn
      exact serves_afterGuard hsplit (h.lastB1.extend hto3) fun hempty =>
        (hfrom hempty).symm ▸ hend3)
  have hto4 := hto3.trans hext4
  rw [← List.append_assoc, ← List.append_nil groups.lastB1.unresolvedEdges] at hlinking4
  obtain ⟨hlinking5, hext5, hsame5⟩ := (h.lastB1.extend hto4).link hlinking4 h5 le_rfl (by
    intro source hleaves
    obtain ⟨-, rfl⟩ := hlinks.fromBeforeInv source _ hleaves hinvIn
    exact hend3.extend hext4)
  have hto5 := hto4.trans hext5
  have hsameAll : ∀ index, index < method.basicBlocks.length ∨ groups.endBodyBlock ≤ index →
      method5.basicBlocks[index]? = blocks.basicBlocks[index]? := by
    intro index hindex
    have hpre : groups.invPreBlock = groups.firstB1.method.basicBlocks.length := rfl
    have hend : groups.endBodyBlock = groups.lastB1.method.basicBlocks.length := rfl
    rw [hsame5 index (by omega), hsame4 index (by omega), hsame3 index (by omega),
      hsame2 index (by omega), hsame1 index (by omega), hsame index (by omega) (by omega)]
  have hendBlock : method5.basicBlocks[groups.endBodyBlock]? =
      some ⟨.endBody loopHead (groups.invPreBlock + 1), .undefined⟩ := by
    rw [hsameAll _ (.inr le_rfl), h.endBodyBlock]
  have hextEnd := Extends.setSuccessor .return hendBlock
  have hlinked : Linking encoder.procedure.encodedTargets encoder.invariantBlock
      (method5.setSuccessor groups.endBodyBlock .return) _ :=
    hlinking5.setSuccessor hendBlock (fun _ heq => nomatch heq) (fun _ _ heq => nomatch heq)
      (fun _ hnext => nomatch hnext)
  have hextAll : Extends (linkStart groups method.basicBlocks.length blocks)
      (method5.setSuccessor groups.endBodyBlock .return) :=
    ((((hext1.trans hext2).trans hext3).trans hext4).trans hext5).trans hextEnd
  obtain ⟨hguardSub, hbeforeSub, hafterSub⟩ := hsplit.subset_loopBody
  have hleaves : ∀ edge ∈ still1 ++ still2 ++ still3 ++ still4 ++ still5,
      method.basicBlocks.length ≤ edge.1 ∧ ∃ source, blocks.SourceAt edge.1 source edge.2 ∧
        LeavesLoop encoder loopHead source edge.2 := by
    have hguard := fun source target hleaves hin =>
      (hlinks.fromGuard source target hleaves hin).1
    have hbefore := fun source target hleaves hin =>
      (hlinks.fromBeforeInv source target hleaves hin).1
    intro edge hedge
    simp only [List.mem_append] at hedge
    rcases hedge with (((hedge | hedge) | hedge) | hedge) | hedge
    · have hedge' := hlinks.leavesLoop_of_mem_still hguardSub h.firstG h1' hguard hedge
      exact ⟨by omega, hedge'.2⟩
    · have hedge' := hlinks.leavesLoop_of_mem_still hbeforeSub h.firstB1 h2' hbefore hedge
      exact ⟨by omega, hedge'.2⟩
    · have hedge' := hlinks.leavesLoop_of_mem_still hafterSub h.lastB2 h3 hlinks.fromAfterInv hedge
      exact ⟨by omega, hedge'.2⟩
    · have hedge' := hlinks.leavesLoop_of_mem_still hguardSub h.lastG h4 hguard hedge
      exact ⟨by omega, hedge'.2⟩
    · have hedge' := hlinks.leavesLoop_of_mem_still hbeforeSub h.lastB1 h5 hbefore hedge
      exact ⟨by omega, hedge'.2⟩
  refine ⟨fun source => (hstart source).extend hextAll, ?_, ?_,
    fun edge hedge => (hleaves edge hedge).1, ?_⟩
  · simpa only [List.append_assoc, List.append_nil] using hlinked
  · intro index hindex
    rw [getElem?_setSuccessor_ne _ (by omega), hsameAll index (.inl hindex), h.keeps index hindex]
  · intro edge hedge
    obtain ⟨-, source, hsource, hleaves'⟩ := hleaves edge hedge
    exact ⟨source, hsource.extend (hext.trans hextAll), hleaves'⟩

end

end LoopBlocks

/-- A loop is encoded when its blocks are and its edges can be linked. -/
theorem encodes_encodeLoop {fuel : Nat} (hsplit : encoder.splitLoop loopHead = .ok parts)
    (hlinks : LoopLinks encoder loopHead parts)
    (hbody : ∀ bb ∈ encoder.loopBody loopHead,
      encoder.Encodable (encoder.encodeLoop fuel) (encoder.loops.loopHeadDepth loopHead) bb) :
    encoder.Encodes (encoder.encodeLoop (fuel + 1) · loopHead) loopHead
      (LeavesLoop encoder loopHead) := by
  intro method unresolved hlinking
  obtain ⟨groups, hfirstG, hfirstB1, hlastB2, hlastG, hlastB1, hblocks⟩ :=
    exists_loopBlocks hlinking (split_of_splitLoop hsplit) hlinks hbody
  obtain ⟨hserves, hextension⟩ := hblocks.linkLoop_spec (split_of_splitLoop hsplit) hlinks
  refine ⟨_, ?_, le_rfl, hserves, hextension⟩
  obtain ⟨hhead1, hhead2, hhead3, hhead4, hhead5, hhead6, hhead7⟩ :=
    followingBlock_heads method.basicBlocks.length groups.firstG.head groups.firstB1.head
      groups.firstB1.method.basicBlocks.length groups.lastB2.head groups.lastG.head
      groups.lastB1.head groups.lastB1.method.basicBlocks.length
  change encoder.encodeLoop (fuel + 1) method loopHead = _
  rw [addInvariant] at hlastB2
  dsimp only at hfirstG hfirstB1 hlastB2 hlastG hlastB1
  rw [encodeLoop, hsplit]
  simp only [bind, Except.bind, snd_addBlock, length_addBlock, hfirstG, hfirstB1, hlastB2,
    hlastG, hlastB1, hhead1, hhead2, hhead3, hhead4, hhead5, hhead6, hhead7]
  rfl

end ProcedureEncoder

end Prusti.Encoder.Procedures

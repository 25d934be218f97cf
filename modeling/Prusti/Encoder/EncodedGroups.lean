/-
The encoding of a group of blocks: edges between its entries are resolved inside of the
group when they go forward, and all other edges are left to the caller.
-/
import Prusti.Encoder.EncodedEdges

namespace Prusti.Encoder.Procedures

open Prusti.Lib Prusti.Mir CfgMethod

universe u

namespace ProcedureEncoder

variable {Ty : Type u} (encoder : ProcedureEncoder Ty)

/-- The blocks of a group that are encoded for the group: those at the depth of the group,
and the heads of the loops nested in it. -/
def IsEntry (depth : Nat) (bb : BasicBlock) : Prop :=
  encoder.loops.getLoopDepth bb = depth ∨
    encoder.loops.getLoopDepth bb = depth + 1 ∧ encoder.loops.isLoopHead bb = true

instance (depth : Nat) (bb : BasicBlock) : Decidable (encoder.IsEntry depth bb) :=
  inferInstanceAs (Decidable (_ ∨ _))

/-- The blocks that are encoded with an entry. -/
def covered (depth : Nat) (entry : BasicBlock) : List BasicBlock :=
  if encoder.loops.getLoopDepth entry = depth then [entry] else encoder.loopBody entry

/-- An edge that leaves what is encoded with an entry.  A block leaves itself. -/
def LeavesEntry (depth : Nat) (entry source target : BasicBlock) : Prop :=
  source ∈ encoder.covered depth entry ∧
    target ∈ encoder.procedure.encodedTargets source ∧
      (encoder.loops.getLoopDepth entry = depth ∨ target ∉ encoder.loopBody entry)

instance (depth : Nat) (entry source target : BasicBlock) :
    Decidable (encoder.LeavesEntry depth entry source target) :=
  inferInstanceAs (Decidable (_ ∧ _ ∧ (_ ∨ _)))

/-- An edge that the group leaves to its caller. -/
def LeavesGroup (depth : Nat) (blocks : List BasicBlock) (source target : BasicBlock) : Prop :=
  ∃ entry ∈ blocks, encoder.IsEntry depth entry ∧
    encoder.LeavesEntry depth entry source target ∧
      ¬ (target ∈ blocks ∧ encoder.IsEntry depth target)

/-- A copy of a group among the blocks of a method, from a position on up to the end of the
encoding of the group. -/
structure GroupCopy (method : CfgMethod) (depth : Nat) (blocks : List BasicBlock)
    (first : Nat) (group : Encoded (Option Nat)) : Prop where
  head_none : blocks = [] → group.head = none
  head_some : ∀ bb, blocks.head? = some bb → ∃ index, group.head = some index ∧
    first ≤ index ∧ ∀ source, method.Serves encoder.invariantBlock source bb index
  range : ∀ edge ∈ group.unresolvedEdges, first ≤ edge.1 ∧ edge.1 < group.method.basicBlocks.length
  leaves : ∀ edge ∈ group.unresolvedEdges, ∃ source,
    method.SourceAt edge.1 source edge.2 ∧ encoder.LeavesGroup depth blocks source edge.2

/-- A group that can be encoded: it starts with an entry, and the edges between its entries
go forward. -/
structure WellGrouped (depth : Nat) (blocks : List BasicBlock) : Prop where
  nodup : blocks.Nodup
  depth_le : ∀ bb ∈ blocks, depth ≤ encoder.loops.getLoopDepth bb
  head : ∀ bb ∈ blocks.head?, encoder.IsEntry depth bb
  forward : ∀ entry ∈ blocks, encoder.IsEntry depth entry →
    ∀ source ∈ encoder.covered depth entry,
      ∀ target ∈ encoder.procedure.encodedTargets source,
        encoder.LeavesEntry depth entry source target → target ∈ blocks →
          encoder.IsEntry depth target → blocks.idxOf entry < blocks.idxOf target

/-- A computation encodes an entry of a group, and leaves the given edges. -/
def Encodes (encode : CfgMethod → Except (Stop LoopEncoderError) (Encoded Nat))
    (entry : BasicBlock) (IsEdge : BasicBlock → BasicBlock → Prop) : Prop :=
  ∀ (method : CfgMethod) (unresolved : List (Nat × BasicBlock)),
    Linking encoder.procedure.encodedTargets encoder.invariantBlock method unresolved →
      ∃ encoded, encode method = .ok encoded ∧
        method.basicBlocks.length ≤ encoded.head ∧
        (∀ source, encoded.method.Serves encoder.invariantBlock source entry encoded.head) ∧
        Extension encoder.procedure.encodedTargets encoder.invariantBlock method unresolved
          IsEdge encoded.method encoded.unresolvedEdges

/-- The group while it is encoded. -/
structure GroupBuilt (method : CfgMethod) (unresolved : List (Nat × BasicBlock)) (depth : Nat)
    (done : List BasicBlock) (state : GroupState) : Prop where
  extension : Extension encoder.procedure.encodedTargets encoder.invariantBlock method unresolved
    (fun source target => ∃ entry ∈ done, encoder.IsEntry depth entry ∧
      encoder.LeavesEntry depth entry source target)
    state.method state.unresolvedEdges
  mapped : ∀ entry ∈ done, encoder.IsEntry depth entry →
    ∃ index, state.bbMap.get? entry = some index
  serves : ∀ target index, state.bbMap.get? target = some index →
    target ∈ done ∧ encoder.IsEntry depth target ∧ method.basicBlocks.length ≤ index ∧
      ∀ source, state.method.Serves encoder.invariantBlock source target index
  forward : ∀ edge ∈ state.unresolvedEdges, ∀ index,
    state.bbMap.get? edge.2 = some index → edge.1 < index

end ProcedureEncoder

section Extension

variable {targets : BasicBlock → List BasicBlock}
  {invariantBlock : BasicBlock → Option BasicBlock} {method method' method'' : CfgMethod}
  {unresolved new new' : List (Nat × BasicBlock)}
  {IsEdge IsEdge' : BasicBlock → BasicBlock → Prop}

section

variable (h : Extension targets invariantBlock method unresolved IsEdge method' new)

include h

theorem Extension.extend : Extends method method' := .of_keeps h.keeps

theorem Extension.length_le :
    method.basicBlocks.length ≤ method'.basicBlocks.length := h.keeps.length_le

theorem Extension.lt_length {edge : Nat × BasicBlock} (hedge : edge ∈ new) :
    edge.1 < method'.basicBlocks.length :=
  h.linking.lt_length (List.mem_append_right _ hedge)

end

/-- Nothing is added. -/
theorem Extension.refl (h : Linking targets invariantBlock method unresolved) :
    Extension targets invariantBlock method unresolved IsEdge method [] where
  linking := by rwa [List.append_nil]
  keeps _ _ := rfl
  fresh _ h := nomatch h
  isEdge _ h := nomatch h

theorem Extension.mono (h : Extension targets invariantBlock method unresolved IsEdge
    method' new) (hedge : ∀ source target, IsEdge source target → IsEdge' source target) :
    Extension targets invariantBlock method unresolved IsEdge' method' new where
  linking := h.linking
  keeps := h.keeps
  fresh := h.fresh
  isEdge edge hmem := by
    obtain ⟨source, hsource, hisEdge⟩ := h.isEdge edge hmem
    exact ⟨source, hsource, hedge source edge.2 hisEdge⟩

/-- One part after the other. -/
theorem Extension.trans (h : Extension targets invariantBlock method unresolved IsEdge method' new)
    (h' : Extension targets invariantBlock method' (unresolved ++ new) IsEdge method'' new') :
    Extension targets invariantBlock method unresolved IsEdge method'' (new ++ new') where
  linking := by
    rw [← List.append_assoc]
    exact h'.linking
  keeps := h.keeps.trans h'.keeps
  fresh edge hmem := by
    rcases List.mem_append.mp hmem with hmem | hmem
    · exact h.fresh edge hmem
    · exact h.length_le.trans (h'.fresh edge hmem)
  isEdge edge hmem := by
    rcases List.mem_append.mp hmem with hmem | hmem
    · obtain ⟨source, hsource, hisEdge⟩ := h.isEdge edge hmem
      exact ⟨source, hsource.extend h'.extend, hisEdge⟩
    · exact h'.isEdge edge hmem

end Extension

namespace ProcedureEncoder

variable {Ty : Type u} {encoder : ProcedureEncoder Ty} {method : CfgMethod}
  {unresolved : List (Nat × BasicBlock)} {depth : Nat} {blocks done rest : List BasicBlock}
  {state : GroupState} {entry : BasicBlock}

theorem idxOf_lt_of_mem_done {target : BasicBlock} (hnodup : (done ++ entry :: rest).Nodup)
    (htarget : target ∈ done) :
    (done ++ entry :: rest).idxOf target < (done ++ entry :: rest).idxOf entry := by
  have hentry : entry ∉ done := by
    intro hmem
    exact (List.disjoint_of_nodup_append hnodup) hmem List.mem_cons_self
  rw [List.idxOf_append_of_mem htarget, List.idxOf_append_of_notMem hentry, List.idxOf_cons_self]
  have hlt := List.idxOf_lt_length_of_mem htarget
  omega

/-- The encoding of an entry is added to a group. -/
theorem GroupBuilt.addToGroup (h : encoder.GroupBuilt method unresolved depth done state)
    (hgroup : encoder.WellGrouped depth (done ++ entry :: rest))
    (hentry : encoder.IsEntry depth entry)
    {encode : CfgMethod → Except (Stop LoopEncoderError) (Encoded Nat)}
    (hencodes : encoder.Encodes encode entry (encoder.LeavesEntry depth entry)) :
    ∃ encoded, encode state.method = .ok encoded ∧
      encoder.GroupBuilt method unresolved depth (done ++ [entry])
        (addToGroup state entry encoded) := by
  obtain ⟨encoded, hok, hhead, hserves, hextension⟩ := hencodes _ _ h.extension.linking
  refine ⟨encoded, hok, ?_, ?_, ?_, ?_⟩
  · apply (h.extension.mono _).trans (hextension.mono _)
    · rintro source target ⟨entry', hdone, hentry'⟩
      exact ⟨entry', List.mem_append_left _ hdone, hentry'⟩
    · intro source target hleaves
      exact ⟨entry, by simp, hentry, hleaves⟩
  · intro entry' hentry' hisEntry
    simp only [ProcedureEncoder.addToGroup]
    rw [HashMap.get?_insert]
    split
    · exact ⟨_, rfl⟩
    · next hne =>
        rcases List.mem_append.mp hentry' with hdone | hnew
        · exact h.mapped entry' hdone hisEntry
        · exact absurd (beq_iff_eq.mpr (List.mem_singleton.mp hnew).symm) hne
  · intro target index hindex
    simp only [ProcedureEncoder.addToGroup] at hindex ⊢
    rw [HashMap.get?_insert] at hindex
    split at hindex
    · next heq =>
        cases hindex
        rw [← beq_iff_eq.mp heq]
        exact ⟨by simp, hentry, h.extension.length_le.trans hhead, hserves⟩
    · obtain ⟨hdone, hisEntry, hle, hserves'⟩ := h.serves target index hindex
      exact ⟨List.mem_append_left _ hdone, hisEntry, hle,
        fun source => (hserves' source).extend hextension.extend⟩
  · intro edge hedge index hindex
    simp only [ProcedureEncoder.addToGroup] at hedge hindex
    rw [HashMap.get?_insert] at hindex
    rcases List.mem_append.mp hedge with hold | hnew
    · -- the new entry comes after all edges so far
      split at hindex
      · cases hindex
        exact (h.extension.lt_length hold).trans_le hhead
      · exact h.forward edge hold index hindex
    · -- the edges of the new entry do not go back
      obtain ⟨source, -, hleaves⟩ := hextension.isEdge edge hnew
      exfalso
      have hforward := hgroup.forward entry (by simp) hentry source hleaves.1 edge.2
        hleaves.2.1 hleaves
      split at hindex
      · next heq =>
          rw [← beq_iff_eq.mp heq] at hforward
          exact Nat.lt_irrefl _ (hforward (by simp) hentry)
      · obtain ⟨hdone, hisEntry, -, -⟩ := h.serves edge.2 index hindex
        have hlt := hforward (List.mem_append_left _ hdone) hisEntry
        exact Nat.lt_asymm hlt (idxOf_lt_of_mem_done hgroup.nodup hdone)

/-- What the encoding of the blocks of a group may rely on. -/
structure Encodable (encodeLoop : CfgMethod → BasicBlock →
    Except (Stop LoopEncoderError) (Encoded Nat)) (depth : Nat) (bb : BasicBlock) : Prop where
  nonspec : encoder.procedure.isSpecBlock bb = false
  supported : ∃ mirSuccessor, encoder.procedure.encodeBlockTerminator bb = some mirSuccessor
  nested : encoder.loops.getLoopDepth bb = depth + 1 → encoder.loops.isLoopHead bb = true →
    encoder.Encodes (encodeLoop · bb) bb fun source target =>
      source ∈ encoder.loopBody bb ∧ target ∈ encoder.procedure.encodedTargets source ∧
        target ∉ encoder.loopBody bb

variable {encodeLoop : CfgMethod → BasicBlock → Except (Stop LoopEncoderError) (Encoded Nat)}

theorem encodes_encodeBlock (hspec : encoder.procedure.isSpecBlock entry = false)
    (hsupported : ∃ mirSuccessor, encoder.procedure.encodeBlockTerminator entry = some mirSuccessor)
    (hdepth : encoder.loops.getLoopDepth entry = depth) :
    encoder.Encodes (encoder.encodeBlock · entry) entry (encoder.LeavesEntry depth entry) := by
  intro method unresolved hlinking
  obtain ⟨mirSuccessor, hsuccessor⟩ := hsupported
  obtain ⟨encoded, hok, hhead, horigin, hextension⟩ := encodeBlock_spec hlinking hspec hsuccessor
  refine ⟨encoded, hok, hhead.ge, fun source => .of_copy horigin, hextension.mono ?_⟩
  rintro source target ⟨rfl, htarget⟩
  refine ⟨?_, htarget, .inl hdepth⟩
  rw [covered, if_pos hdepth]
  exact List.mem_singleton_self _

theorem GroupBuilt.step (h : encoder.GroupBuilt method unresolved depth done state)
    (hgroup : encoder.WellGrouped depth (done ++ entry :: rest))
    (hentry : encoder.Encodable encodeLoop depth entry) :
    ∃ state', encoder.encodeGroupBlock encodeLoop depth state entry = .ok state' ∧
      encoder.GroupBuilt method unresolved depth (done ++ [entry]) state' := by
  have hdepth := hgroup.depth_le entry (by simp)
  rw [encodeGroupBlock]
  by_cases hplain : encoder.loops.getLoopDepth entry = depth
  · obtain ⟨encoded, hok, hbuilt⟩ := h.addToGroup hgroup (.inl hplain)
      (encodes_encodeBlock hentry.nonspec hentry.supported hplain)
    refine ⟨_, ?_, hbuilt⟩
    rw [if_pos hplain, hok]
    rfl
  · have hlt : decide (depth < encoder.loops.getLoopDepth entry) = true := decide_eq_true (by omega)
    simp only [if_neg hplain, Stop.assert, hlt, if_true, bind, Except.bind, pure, Except.pure,
      Bool.and_eq_true, decide_eq_true_eq]
    by_cases hnested : encoder.loops.getLoopDepth entry = depth + 1 ∧
        encoder.loops.isLoopHead entry = true
    · have hencodes : encoder.Encodes (encodeLoop · entry) entry
          (encoder.LeavesEntry depth entry) := by
        intro method unresolved hlinking
        obtain ⟨encoded, hok, hhead, hserves, hextension⟩ :=
          hentry.nested hnested.1 hnested.2 method unresolved hlinking
        refine ⟨encoded, hok, hhead, hserves, hextension.mono ?_⟩
        rintro source target ⟨hsource, htarget, hout⟩
        exact ⟨by rwa [covered, if_neg hplain], htarget, .inr hout⟩
      obtain ⟨encoded, hok, hbuilt⟩ := h.addToGroup hgroup (.inr hnested) hencodes
      refine ⟨_, ?_, hbuilt⟩
      rw [if_pos hnested, hok]
    · -- an inner block of a nested loop
      rw [if_neg hnested]
      refine ⟨state, rfl, ?_, ?_, ?_, h.forward⟩
      · apply h.extension.mono
        rintro source target ⟨entry', hdone, hentry'⟩
        exact ⟨entry', List.mem_append_left _ hdone, hentry'⟩
      · intro entry' hmem hisEntry
        rcases List.mem_append.mp hmem with hdone | hnew
        · exact h.mapped entry' hdone hisEntry
        · rw [List.mem_singleton.mp hnew] at hisEntry
          exact absurd hisEntry (not_or.mpr ⟨hplain, hnested⟩)
      · intro target index hindex
        obtain ⟨hdone, hrest⟩ := h.serves target index hindex
        exact ⟨List.mem_append_left _ hdone, hrest⟩

theorem GroupBuilt.foldlM (h : encoder.GroupBuilt method unresolved depth done state)
    (hgroup : encoder.WellGrouped depth (done ++ rest))
    (hrest : ∀ bb ∈ rest, encoder.Encodable encodeLoop depth bb) :
    ∃ state', rest.foldlM (encoder.encodeGroupBlock encodeLoop depth) state = .ok state' ∧
      encoder.GroupBuilt method unresolved depth (done ++ rest) state' := by
  induction rest generalizing done state with
  | nil => exact ⟨state, rfl, by rwa [List.append_nil]⟩
  | cons bb rest ih =>
    obtain ⟨state', hstep, hbuilt⟩ := h.step hgroup (hrest bb List.mem_cons_self)
    have hsplit : done ++ bb :: rest = (done ++ [bb]) ++ rest := by simp
    rw [hsplit] at hgroup ⊢
    obtain ⟨state'', hok, hbuilt'⟩ :=
      ih hbuilt hgroup fun other hother => hrest other (List.mem_cons_of_mem _ hother)
    refine ⟨state'', ?_, hbuilt'⟩
    rw [List.foldlM_cons, hstep]
    exact hok

/-- A well grouped group is encoded, and it leaves the edges that do not end at an entry of
the group. -/
theorem encodeBlocksGroup_spec
    (h : Linking encoder.procedure.encodedTargets encoder.invariantBlock method unresolved)
    (hgroup : encoder.WellGrouped depth blocks)
    (hblocks : ∀ bb ∈ blocks, encoder.Encodable encodeLoop depth bb) :
    ∃ encoded, encoder.encodeBlocksGroup encodeLoop method blocks depth = .ok encoded ∧
      Extension encoder.procedure.encodedTargets encoder.invariantBlock method unresolved
        (encoder.LeavesGroup depth blocks) encoded.method encoded.unresolvedEdges ∧
      encoder.GroupCopy encoded.method depth blocks method.basicBlocks.length encoded := by
  have hstart : encoder.GroupBuilt method unresolved depth [] ⟨method, HashMap.empty, []⟩ :=
    ⟨.refl h, (fun _ hmem => nomatch hmem), (fun _ _ hmem => nomatch hmem),
      (fun _ hmem => nomatch hmem)⟩
  obtain ⟨state, hfold, hbuilt⟩ := hstart.foldlM hgroup hblocks
  rw [List.nil_append] at hbuilt
  have hlinking := hbuilt.extension.linking
  rw [← List.append_nil state.unresolvedEdges] at hlinking
  obtain ⟨hlinked, hextend, hkeeps⟩ := hlinking.encodeUnresolvedEdges state.bbMap.get? (by
      intro edge hedge index hindex
      obtain ⟨-, -, -, hserves⟩ := hbuilt.serves edge.2 index hindex
      exact ⟨hbuilt.forward edge hedge index hindex, fun source _ => hserves source⟩)
  rw [List.append_nil] at hlinked
  have hextension : Extension encoder.procedure.encodedTargets encoder.invariantBlock method
      unresolved (encoder.LeavesGroup depth blocks)
      (encodeUnresolvedEdges state.bbMap.get? state.method state.unresolvedEdges).1
      (encodeUnresolvedEdges state.bbMap.get? state.method state.unresolvedEdges).2 := by
    refine ⟨hlinked, ?_, ?_, ?_⟩
    · intro index hindex
      rw [hkeeps index, hbuilt.extension.keeps index hindex]
      intro hmem
      obtain ⟨edge, hedge, rfl⟩ := List.mem_map.mp hmem
      exact Nat.not_lt.mpr (hbuilt.extension.fresh edge hedge) hindex
    · intro edge hedge
      exact hbuilt.extension.fresh edge (mem_snd_encodeUnresolvedEdges_iff.mp hedge).1
    · intro edge hedge
      obtain ⟨hmem, hnone⟩ := mem_snd_encodeUnresolvedEdges_iff.mp hedge
      obtain ⟨source, hsource, entry, hentry, hisEntry, hleaves⟩ :=
        hbuilt.extension.isEdge edge hmem
      refine ⟨source, hsource.extend hextend, entry, hentry, hisEntry, hleaves, ?_⟩
      rintro ⟨htarget, htargetEntry⟩
      obtain ⟨index, hindex⟩ := hbuilt.mapped edge.2 htarget htargetEntry
      rw [hnone] at hindex
      nomatch hindex
  have hrange := fun edge hedge => And.intro (hextension.fresh edge hedge)
    (hextension.lt_length hedge)
  rw [encodeBlocksGroup, hfold]
  cases blocks with
  | nil =>
    exact ⟨_, rfl, hextension, fun _ => rfl, (fun _ hhead => nomatch hhead), hrange,
      hextension.isEdge⟩
  | cons bb rest =>
    obtain ⟨index, hindex⟩ := hbuilt.mapped bb List.mem_cons_self (hgroup.head bb rfl)
    obtain ⟨-, -, hle, hserves⟩ := hbuilt.serves bb index hindex
    refine ⟨⟨_, some index, _⟩, ?_, hextension, (fun hnil => nomatch hnil), ?_, hrange,
      hextension.isEdge⟩
    · simp [bind, Except.bind, Stop.orPanic, hindex, pure, Except.pure]
    · intro bb' hhead
      cases hhead
      exact ⟨index, rfl, hle, fun source => (hserves source).extend hextend⟩

namespace GroupCopy

variable {method' : CfgMethod} {first : Nat} {group : Encoded (Option Nat)}
  {linked : CfgMethod} {front back still : List (Nat × BasicBlock)}

section

variable (h : encoder.GroupCopy method depth blocks first group)

include h

theorem extend (hext : Extends method method') :
    encoder.GroupCopy method' depth blocks first group where
  head_none := h.head_none
  head_some bb hbb := by
    obtain ⟨index, hindex, hle, hserves⟩ := h.head_some bb hbb
    exact ⟨index, hindex, hle, fun source => (hserves source).extend hext⟩
  range := h.range
  leaves edge hedge := by
    obtain ⟨source, hsource, hleaves⟩ := h.leaves edge hedge
    exact ⟨source, hsource.extend hext, hleaves⟩

/-- Link the edges of a copy that lead to one block. -/
theorem link
    (hlinking : Linking encoder.procedure.encodedTargets encoder.invariantBlock method
      (front ++ (group.unresolvedEdges ++ back)))
    {target : BasicBlock} {targetBlock : Nat}
    (hlink : encodeUnresolvedEdges (resolveOnly target targetBlock) method
      group.unresolvedEdges = (linked, still))
    (hlt : group.method.basicBlocks.length ≤ targetBlock)
    (hserves : ∀ source, encoder.LeavesGroup depth blocks source target →
      method.Serves encoder.invariantBlock source target targetBlock) :
    Linking encoder.procedure.encodedTargets encoder.invariantBlock linked
        (front ++ (still ++ back)) ∧
      Extends method linked ∧
      ∀ index, index < first ∨ group.method.basicBlocks.length ≤ index →
        linked.basicBlocks[index]? = method.basicBlocks[index]? := by
  obtain ⟨hlinked, hext, hkeeps⟩ := hlinking.encodeUnresolvedEdges
    (resolveOnly target targetBlock) (by
      intro edge hedge targetBlock' hresolved
      rw [resolveOnly] at hresolved
      split at hresolved
      · next heq =>
          cases hresolved
          refine ⟨(h.range edge hedge).2.trans_le hlt, ?_⟩
          intro source hsource
          obtain ⟨source', hsource', hleaves⟩ := h.leaves edge hedge
          rw [hsource.unique hsource', heq]
          exact hserves source' (heq ▸ hleaves)
      · nomatch hresolved)
  rw [hlink] at hlinked hext hkeeps
  refine ⟨hlinked, hext, fun index hindex => hkeeps index ?_⟩
  intro hmem
  obtain ⟨edge, hedge, rfl⟩ := List.mem_map.mp hmem
  have hrange := h.range edge hedge
  omega

/-- What is still unresolved after edges to `target` were linked. -/
theorem leaves_of_mem_still {target : BasicBlock} {targetBlock : Nat}
    (hlink : encodeUnresolvedEdges (resolveOnly target targetBlock) method'
      group.unresolvedEdges = (linked, still))
    {edge : Nat × BasicBlock} (hedge : edge ∈ still) :
    edge.2 ≠ target ∧ first ≤ edge.1 ∧ ∃ source, method.SourceAt edge.1 source edge.2 ∧
      encoder.LeavesGroup depth blocks source edge.2 := by
  have hstill := congrArg Prod.snd hlink
  change _ = still at hstill
  rw [← hstill] at hedge
  obtain ⟨hmem, hnone⟩ := mem_snd_encodeUnresolvedEdges_iff.mp hedge
  refine ⟨?_, (h.range edge hmem).1, h.leaves edge hmem⟩
  intro heq
  rw [resolveOnly, if_pos heq] at hnone
  nomatch hnone

end

end GroupCopy

end ProcedureEncoder

end Prusti.Encoder.Procedures

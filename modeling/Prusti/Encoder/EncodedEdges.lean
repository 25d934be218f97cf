/-
The encoding of a single block with the blocks on its edges: all its edges are followed or
wait to be resolved.
-/
import Prusti.Encoder.Linking

namespace Prusti.Encoder.Procedures

open Prusti.Lib Prusti.Mir CfgMethod

variable {mirSuccessor : MirSuccessor}

universe u

namespace Procedure

variable {Ty : Type u} (procedure : Procedure Ty)

/-- The targets of the edges of a block that the encoding keeps. -/
def encodedTargets (bbi : BasicBlock) : List BasicBlock :=
  match procedure.encodeBlockTerminator bbi with
  | some mirSuccessor => mirSuccessor.targets
  | none => []

variable {procedure}

theorem encodedTargets_eq {bbi : BasicBlock}
    (h : procedure.encodeBlockTerminator bbi = some mirSuccessor) :
    procedure.encodedTargets bbi = mirSuccessor.targets := by
  rw [encodedTargets, h]

theorem targets_encodeSwitch_subset {bbi defaultTarget : BasicBlock}
    {guardedTargets : List BasicBlock}
    (h : procedure.encodeSwitch bbi guardedTargets defaultTarget = some mirSuccessor) :
    mirSuccessor.targets ⊆ guardedTargets ++ [defaultTarget] := by
  unfold encodeSwitch at h
  split at h
  · obtain ⟨lastTarget, hlast, rfl⟩ := Option.map_eq_some_iff.mp h
    intro target htarget
    rcases List.mem_cons.mp htarget with rfl | htarget
    · exact List.mem_append_left _ (List.mem_of_getLast? hlast)
    · exact List.mem_append_left _ (List.dropLast_subset _ htarget)
  · split at h
    · split at h <;> cases h <;> simp [MirSuccessor.targets]
    · cases h
      intro target htarget
      rcases List.mem_cons.mp htarget with rfl | htarget
      · simp
      · exact List.mem_append_left _ htarget

theorem mem_targets_encodeSwitch {bbi defaultTarget target : BasicBlock}
    {guardedTargets : List BasicBlock}
    (h : procedure.encodeSwitch bbi guardedTargets defaultTarget = some mirSuccessor)
    (htarget : target ∈ guardedTargets ++ [defaultTarget])
    (hreachable : procedure.isUnreachableTerminator target = false)
    (hspec : procedure.isSpecBlock target = false) : target ∈ mirSuccessor.targets := by
  rw [List.mem_append, List.mem_singleton] at htarget
  unfold encodeSwitch at h
  split at h
  · next hkill =>
      obtain ⟨lastTarget, hlast, rfl⟩ := Option.map_eq_some_iff.mp h
      have hguarded : target ∈ guardedTargets := by
        apply htarget.resolve_right
        rintro rfl
        rw [hreachable, hspec] at hkill
        nomatch hkill
      rw [← List.dropLast_append_getLast? lastTarget hlast, List.mem_append,
        List.mem_singleton] at hguarded
      rw [MirSuccessor.targets, List.mem_cons]
      exact hguarded.symm
  · split at h
    · split at h <;> cases h <;> simpa [MirSuccessor.targets, or_comm] using htarget
    · cases h
      rw [MirSuccessor.targets, List.mem_cons]
      exact htarget.symm

/-- The kept edges are real edges. -/
theorem encodedTargets_subset (bbi : BasicBlock) :
    procedure.encodedTargets bbi ⊆ procedure.body.realSuccessors bbi := by
  rw [encodedTargets, encodeBlockTerminator, Body.realSuccessors]
  cases procedure.body.terminator? bbi with
  | none => exact List.nil_subset _
  | some kind =>
    rw [Option.bind_some]
    cases kind with
    | switchInt discr targets =>
      rw [encodeTerminator]
      cases hlast : targets.getLast? with
      | none => exact List.nil_subset _
      | some defaultTarget =>
        simp only [Option.bind_eq_bind, Option.bind_some]
        split
        · next mirSuccessor hswitch =>
            have hsub := targets_encodeSwitch_subset hswitch
            rw [List.dropLast_append_getLast? defaultTarget hlast] at hsub
            exact hsub
        · exact List.nil_subset _
    | call func args destination cleanup =>
      rcases destination with _ | ⟨place, target⟩
      · exact List.nil_subset _
      · exact List.Subset.refl _
    | _ => simp [encodeTerminator, MirSuccessor.targets, TerminatorKind.realTargets]

/-- What is not kept are edges to blocks that are unreachable or type-check specifications. -/
theorem mem_encodedTargets {bbi target : BasicBlock}
    (h : procedure.encodeBlockTerminator bbi = some mirSuccessor)
    (htarget : target ∈ procedure.body.realSuccessors bbi)
    (hreachable : procedure.isUnreachableTerminator target = false)
    (hspec : procedure.isSpecBlock target = false) :
    target ∈ procedure.encodedTargets bbi := by
  rw [encodedTargets_eq h]
  rw [encodeBlockTerminator] at h
  rw [Body.realSuccessors] at htarget
  cases hkind : procedure.body.terminator? bbi with
  | none =>
    rw [hkind] at htarget
    cases htarget
  | some kind =>
    rw [hkind, Option.bind_some] at h
    rw [hkind] at htarget
    cases kind with
    | switchInt discr targets =>
      rw [encodeTerminator] at h
      obtain ⟨defaultTarget, hlast, hswitch⟩ := Option.bind_eq_some_iff.mp h
      change target ∈ targets at htarget
      rw [← List.dropLast_append_getLast? defaultTarget hlast] at htarget
      exact mem_targets_encodeSwitch hswitch htarget hreachable hspec
    | call func args destination cleanup =>
      rcases destination with _ | ⟨place, target'⟩
      · cases htarget
      · cases h
        exact htarget
    | _ => cases h <;> exact htarget

end Procedure

section Extension

variable (targets : BasicBlock → List BasicBlock) (invariantBlock : BasicBlock → Option BasicBlock)

/-- A part of the encoding: blocks are added, and the edges that it leaves unresolved are
edges of the body as they are given. -/
structure Extension (method : CfgMethod) (unresolved : List (Nat × BasicBlock))
    (IsEdge : BasicBlock → BasicBlock → Prop) (method' : CfgMethod)
    (new : List (Nat × BasicBlock)) : Prop where
  linking : Linking targets invariantBlock method' (unresolved ++ new)
  keeps : Keeps method method'
  fresh : ∀ edge ∈ new, method.basicBlocks.length ≤ edge.1
  isEdge : ∀ edge ∈ new, ∃ source, method'.SourceAt edge.1 source edge.2 ∧ IsEdge source edge.2

end Extension

/-- All targets of a successor can be resolved. -/
theorem mapM_orPanic {resolve : BasicBlock → Option Nat} {targets : List BasicBlock}
    (h : ∀ target ∈ targets, ∃ index, resolve target = some index) :
    (targets.mapM fun target => (Stop.orPanic (resolve target) :
      Except (Stop LoopEncoderError) Nat)) = .ok (targets.filterMap resolve) := by
  induction targets with
  | nil => rfl
  | cons target targets ih =>
    obtain ⟨index, hindex⟩ := h target List.mem_cons_self
    have hrest := ih fun other hother => h other (List.mem_cons_of_mem _ hother)
    rw [List.mapM_cons, hindex, List.filterMap_cons_some hindex, hrest]
    rfl

/-- The successor of an encoded block jumps to the blocks of its targets. -/
theorem MirSuccessor.encode_spec (mirSuccessor : MirSuccessor) (returnBlock : Nat)
    {resolve : BasicBlock → Option Nat}
    (h : ∀ target ∈ mirSuccessor.targets, ∃ index, resolve target = some index) :
    ∃ successor, mirSuccessor.encode returnBlock resolve = .ok successor ∧
      (∀ next ∈ successor.targets, next = returnBlock ∨ ∃ target, resolve target = some next) ∧
      ∀ target ∈ mirSuccessor.targets, ∀ index, resolve target = some index →
        index ∈ successor.targets := by
  cases mirSuccessor with
  | «return» | kill =>
    refine ⟨_, rfl, by simp [Successor.targets], ?_⟩
    intro target htarget
    cases htarget
  | goto target =>
    obtain ⟨index, hindex⟩ := h target List.mem_cons_self
    refine ⟨.goto index, by rw [encode, hindex]; rfl, ?_, ?_⟩
    · intro next hnext
      rw [Successor.targets, List.mem_singleton] at hnext
      exact .inr ⟨target, hnext ▸ hindex⟩
    · intro other hother index' hindex'
      rw [targets, List.mem_singleton] at hother
      rw [hother, hindex, Option.some_inj] at hindex'
      rw [hindex', Successor.targets, List.mem_singleton]
  | gotoSwitch guardedTargets defaultTarget =>
    obtain ⟨index, hindex⟩ := h defaultTarget List.mem_cons_self
    have hguarded := mapM_orPanic fun target htarget =>
      h target (List.mem_cons_of_mem _ htarget)
    refine ⟨.gotoSwitch (guardedTargets.filterMap resolve) index,
      by rw [encode, hguarded, hindex]; rfl, ?_, ?_⟩
    · intro next hnext
      rw [Successor.targets, List.mem_append, List.mem_filterMap, List.mem_singleton] at hnext
      rcases hnext with ⟨target, -, htarget⟩ | hnext
      · exact .inr ⟨target, htarget⟩
      · exact .inr ⟨defaultTarget, hnext ▸ hindex⟩
    · intro other hother index' hindex'
      rw [Successor.targets, List.mem_append, List.mem_filterMap, List.mem_singleton]
      rcases List.mem_cons.mp hother with rfl | hother
      · rw [hindex, Option.some_inj] at hindex'
        exact .inr hindex'.symm
      · exact .inl ⟨other, hother, hindex'⟩

section Edges

variable {Ty : Type u} (encoder : ProcedureEncoder Ty)

/-- The method while the edges of the block at `length` are encoded. -/
structure EdgeBlocks (method : CfgMethod) (bbi : BasicBlock) (forceBlock : Bool)
    (done : List BasicBlock) (state : CfgMethod × HashMap BasicBlock Nat × Bool) : Prop where
  keeps : ∀ index ≤ method.basicBlocks.length,
    state.1.basicBlocks[index]? = (method.addBlock (.copy bbi)).1.basicBlocks[index]?
  added : ∀ index, method.basicBlocks.length < index → ∀ block : CfgBlock,
    state.1.basicBlocks[index]? = some block → ∃ target, block = ⟨.edge bbi target, .undefined⟩
  resolved : ∀ target index, state.2.1.get? target = some index →
    target ∈ done ∧ method.basicBlocks.length < index ∧
      state.1.basicBlocks[index]? = some ⟨.edge bbi target, .undefined⟩
  complete : state.2.2 = true → ∀ target ∈ done, ∃ index, state.2.1.get? target = some index
  incomplete : state.2.2 = false → forceBlock = false ∧ done ≠ []

variable {encoder} {method : CfgMethod} {bbi : BasicBlock} {forceBlock : Bool}
  {done : List BasicBlock} {state : CfgMethod × HashMap BasicBlock Nat × Bool}

theorem EdgeBlocks.start (method : CfgMethod) (bbi : BasicBlock) (forceBlock : Bool) :
    EdgeBlocks method bbi forceBlock [] ((method.addBlock (.copy bbi)).1, HashMap.empty, true) where
  keeps _ _ := rfl
  added index hindex block hblock := by
    have hlt := (List.getElem?_eq_some_iff.mp hblock).1
    rw [length_addBlock] at hlt
    omega
  resolved _ _ h := nomatch h
  complete _ _ h := nomatch h
  incomplete h := nomatch h

theorem EdgeBlocks.length_lt (h : EdgeBlocks method bbi forceBlock done state) :
    method.basicBlocks.length < state.1.basicBlocks.length := by
  have hcopy := h.keeps method.basicBlocks.length le_rfl
  rw [getElem?_addBlock, if_pos rfl] at hcopy
  exact (List.getElem?_eq_some_iff.mp hcopy).1

theorem EdgeBlocks.step (h : EdgeBlocks method bbi forceBlock done state) (target : BasicBlock) :
    EdgeBlocks method bbi forceBlock (done ++ [target])
      (encoder.encodeEdgeBlock bbi forceBlock state target) := by
  have hlength := h.length_lt
  rw [ProcedureEncoder.encodeEdgeBlock]
  split
  · have hold : ∀ index, index ≠ state.1.basicBlocks.length →
        (state.1.addBlock (.edge bbi target)).1.basicBlocks[index]? =
          state.1.basicBlocks[index]? := by
      intro index hindex
      rw [getElem?_addBlock, if_neg hindex]
    constructor
    · intro index hindex
      rw [hold index (by omega), h.keeps index hindex]
    · intro index hindex block hblock
      dsimp only at hblock
      rw [getElem?_addBlock] at hblock
      split at hblock
      · exact ⟨target, (Option.some_inj.mp hblock).symm⟩
      · exact h.added index hindex block hblock
    · intro target' index hindex
      dsimp only at hindex ⊢
      rw [HashMap.get?_insert, snd_addBlock] at hindex
      split at hindex
      · next heq =>
          rw [Option.some_inj] at hindex
          subst hindex
          rw [beq_iff_eq.mp heq] at *
          exact ⟨by simp, hlength, by rw [getElem?_addBlock, if_pos rfl]⟩
      · obtain ⟨hdone, hlt, hblock⟩ := h.resolved target' index hindex
        refine ⟨List.mem_append_left _ hdone, hlt, ?_⟩
        rw [hold index (Nat.ne_of_lt (List.getElem?_eq_some_iff.mp hblock).1), hblock]
    · intro hcomplete target' htarget'
      dsimp only at hcomplete ⊢
      rw [HashMap.get?_insert]
      split
      · exact ⟨_, rfl⟩
      · next hne =>
          rcases List.mem_append.mp htarget' with hdone | hnew
          · exact h.complete hcomplete target' hdone
          · exact absurd (beq_iff_eq.mpr (List.mem_singleton.mp hnew).symm) hne
    · intro hincomplete
      exact ⟨(h.incomplete hincomplete).1, by simp⟩
  · next hneeded =>
      rw [Bool.or_eq_true, not_or, Bool.not_eq_true] at hneeded
      refine ⟨h.keeps, h.added, ?_, (fun hcomplete => nomatch hcomplete), ?_⟩
      · intro target' index hindex
        obtain ⟨hdone, hblock⟩ := h.resolved target' index hindex
        exact ⟨List.mem_append_left _ hdone, hblock⟩
      · exact fun _ => ⟨hneeded.1, by simp⟩

variable (encoder) in
theorem EdgeBlocks.foldl (h : EdgeBlocks method bbi forceBlock done state)
    (rest : List BasicBlock) :
    EdgeBlocks method bbi forceBlock (done ++ rest)
      (rest.foldl (encoder.encodeEdgeBlock bbi forceBlock) state) := by
  induction rest generalizing done state with
  | nil => rwa [List.append_nil]
  | cons target rest ih =>
    rw [← List.singleton_append, ← List.append_assoc]
    exact ih (h.step target)

/-- The blocks that are added after a copy of a block, for its edges. -/
theorem Extension.of_copy {targets : BasicBlock → List BasicBlock}
    {invariantBlock : BasicBlock → Option BasicBlock} {method' : CfgMethod}
    {unresolved new : List (Nat × BasicBlock)} {successor : Successor}
    (h : Linking targets invariantBlock method unresolved) (hkeeps : Keeps method method')
    (hcopy : method'.basicBlocks[method.basicBlocks.length]? = some ⟨.copy bbi, successor⟩)
    (hadded : ∀ index, method.basicBlocks.length < index → ∀ block : CfgBlock,
      method'.basicBlocks[index]? = some block → ∃ target, block = ⟨.edge bbi target, .undefined⟩)
    (hforward : ∀ next ∈ successor.targets,
      next = returnCfgBlock ∨ method.basicBlocks.length < next)
    (hnodup : (new.map Prod.fst).Nodup)
    (hnew : ∀ edge ∈ new, method.basicBlocks.length ≤ edge.1 ∧
      (∃ origin, method'.basicBlocks[edge.1]? = some ⟨origin, .undefined⟩) ∧
        method'.SourceAt edge.1 bbi edge.2 ∧ edge.2 ∈ targets bbi)
    (hwaits : ∀ target ∈ targets bbi, Waits method' new method.basicBlocks.length bbi target) :
    Extension targets invariantBlock method unresolved
      (fun source target => source = bbi ∧ target ∈ targets bbi) method' new := by
  have hext : Extends method method' := .of_keeps hkeeps
  have hundefined : ∀ edge ∈ unresolved,
      method'.basicBlocks[edge.1]? = method.basicBlocks[edge.1]? :=
    fun edge hedge => hkeeps _ (h.lt_length hedge)
  refine ⟨⟨?_, ?_, ?_, ?_, ?_⟩, hkeeps, fun edge hedge => (hnew edge hedge).1, ?_⟩
  · intro index next hnext
    rcases Nat.lt_trichotomy index method.basicBlocks.length with hlt | heq | hgt
    · rw [following_congr (hkeeps index hlt)] at hnext
      exact h.forward index next hnext
    · subst heq
      rw [following_eq hcopy] at hnext
      exact hforward next hnext
    · obtain ⟨block, hblock, hmem⟩ := mem_following_iff.mp hnext
      obtain ⟨target, rfl⟩ := hadded index hgt block hblock
      cases hmem
  · rw [hkeeps _ h.returnCfgBlock_lt, h.returns]
  · rw [List.map_append, List.nodup_append']
    refine ⟨h.nodup, hnodup, ?_⟩
    intro index hold hindex
    obtain ⟨edge, hedge, rfl⟩ := List.mem_map.mp hold
    obtain ⟨edge', hedge', heq⟩ := List.mem_map.mp hindex
    have hlt := h.lt_length hedge
    have hge := (hnew edge' hedge').1
    omega
  · intro edge hedge
    rcases List.mem_append.mp hedge with hold | hadded
    · obtain ⟨⟨origin, hblock⟩, source, hsource⟩ := h.pending edge hold
      exact ⟨⟨origin, by rw [hundefined edge hold, hblock]⟩, source, hsource.extend hext⟩
    · obtain ⟨-, hblock, hsource, -⟩ := hnew edge hadded
      exact ⟨hblock, bbi, hsource⟩
  · intro index source horigin target htarget
    rcases Nat.lt_trichotomy index method.basicBlocks.length with hlt | heq | hgt
    · rw [originAt_congr (hkeeps index hlt)] at horigin
      rcases h.follows index source horigin target htarget with hfollows | hwaits'
      · exact .inl (hfollows.extend hext)
      · rcases hwaits'.extend hext with hmem | ⟨next, hnext, hedge, hmem⟩
        · exact .inr (.inl (List.mem_append_left _ hmem))
        · exact .inr (.inr ⟨next, hnext, hedge, List.mem_append_left _ hmem⟩)
    · subst heq
      rw [originAt, hcopy, Option.map_some, Option.some_inj, BlockOrigin.copy.injEq] at horigin
      subst horigin
      rcases hwaits target htarget with hmem | ⟨next, hnext, hedge, hmem⟩
      · exact .inr (.inl (List.mem_append_right _ hmem))
      · exact .inr (.inr ⟨next, hnext, hedge, List.mem_append_right _ hmem⟩)
    · obtain ⟨successor', hblock⟩ := originAt_eq_some_iff.mp horigin
      obtain ⟨target', heq⟩ := hadded index hgt _ hblock
      cases heq
  · intro edge hedge
    obtain ⟨-, -, hsource, htarget⟩ := hnew edge hedge
    exact ⟨bbi, hsource, rfl, htarget⟩

end Edges

namespace ProcedureEncoder

variable {Ty : Type u} (encoder : ProcedureEncoder Ty)

/-- The invariant block of a loop, as it is cached. -/
def invariantBlock (loopHead : BasicBlock) : Option BasicBlock :=
  lookup encoder.cachedLoopInvariantBlock loopHead

variable {encoder} {method : CfgMethod} {bbi : BasicBlock}
  {unresolved : List (Nat × BasicBlock)}

/-- The edges of a block that are resolved by blocks on them. -/
theorem nodup_targetsMap {state : CfgMethod × HashMap BasicBlock Nat × Bool}
    {forceBlock : Bool} {done : List BasicBlock} (h : EdgeBlocks method bbi forceBlock done state) :
    ((state.2.1.entries.map Prod.swap).map Prod.fst).Nodup := by
  rw [List.map_map, List.Nodup, List.pairwise_map]
  refine state.2.1.nodup.imp_of_mem ?_
  intro left right hleft hright hne heq
  obtain ⟨-, -, hleft'⟩ := h.resolved _ _ (HashMap.get?_of_mem hleft BEq.rfl)
  obtain ⟨-, -, hright'⟩ := h.resolved _ _ (HashMap.get?_of_mem hright BEq.rfl)
  change left.2 = right.2 at heq
  rw [heq, hright', Option.some_inj, CfgBlock.mk.injEq, BlockOrigin.edge.injEq] at hleft'
  rw [hleft'.1.2, BEq.rfl] at hne
  nomatch hne

/-- A block is encoded as a copy of it. -/
theorem encodeBlock_spec
    (h : Linking encoder.procedure.encodedTargets encoder.invariantBlock method unresolved)
    (hspec : encoder.procedure.isSpecBlock bbi = false)
    (hsuccessor : encoder.procedure.encodeBlockTerminator bbi = some mirSuccessor) :
    ∃ encoded, encoder.encodeBlock method bbi = .ok encoded ∧
      encoded.head = method.basicBlocks.length ∧
      encoded.method.originAt encoded.head = some (.copy bbi) ∧
      Extension encoder.procedure.encodedTargets encoder.invariantBlock method unresolved
        (fun source target => source = bbi ∧ target ∈ encoder.procedure.encodedTargets bbi)
        encoded.method encoded.unresolvedEdges := by
  have hedges := (EdgeBlocks.start method bbi
    (decide (1 < mirSuccessor.targets.length))).foldl encoder mirSuccessor.targets
  rw [List.nil_append] at hedges
  have htargets := Procedure.encodedTargets_eq hsuccessor
  rw [encodeBlock, hspec, hsuccessor]
  simp only [Stop.assert, Stop.orPanic, Bool.not_false, if_true, bind, Except.bind, pure,
    Except.pure, snd_addBlock]
  generalize hstate : List.foldl _ _ mirSuccessor.targets = state at hedges ⊢
  have hkeeps : Keeps method state.1 := by
    intro index hindex
    rw [hedges.keeps index (Nat.le_of_lt hindex), getElem?_addBlock, if_neg (Nat.ne_of_lt hindex)]
  have hcopy : state.1.basicBlocks[method.basicBlocks.length]? = some ⟨.copy bbi, .undefined⟩ := by
    rw [hedges.keeps _ le_rfl, getElem?_addBlock, if_pos rfl]
  cases hcomplete : state.2.2 with
  | true =>
    have hresolved := hedges.complete hcomplete
    obtain ⟨successor, hencode, htargets', hcovers⟩ :=
      mirSuccessor.encode_spec returnCfgBlock hresolved
    rw [if_pos rfl, hencode]
    refine ⟨_, rfl, rfl, ?_, ?_⟩
    · rw [originAt_setSuccessor]
      exact originAt_eq_some_iff.mpr ⟨_, hcopy⟩
    have hsame : ∀ index, index ≠ method.basicBlocks.length →
        (state.1.setSuccessor method.basicBlocks.length successor).basicBlocks[index]? =
          state.1.basicBlocks[index]? := fun index hindex =>
      getElem?_setSuccessor_ne successor hindex.symm
    have hcopy' : (state.1.setSuccessor method.basicBlocks.length successor).basicBlocks[
        method.basicBlocks.length]? = some ⟨.copy bbi, successor⟩ := by
      rw [getElem?_setSuccessor, if_pos rfl, hcopy]
      rfl
    have hat : ∀ target index, state.2.1.get? target = some index →
        target ∈ mirSuccessor.targets ∧ method.basicBlocks.length < index ∧
          (state.1.setSuccessor method.basicBlocks.length successor).basicBlocks[index]? =
            some ⟨.edge bbi target, .undefined⟩ := by
      intro target index hindex
      obtain ⟨htarget, hlt, hblock⟩ := hedges.resolved target index hindex
      exact ⟨htarget, hlt, by rw [hsame index (Nat.ne_of_gt hlt), hblock]⟩
    refine Extension.of_copy h ?_ hcopy' ?_ ?_ (nodup_targetsMap hedges) ?_ ?_
    · intro index hindex
      rw [hsame index (Nat.ne_of_lt hindex), hkeeps index hindex]
    · intro index hindex block hblock
      rw [hsame index (Nat.ne_of_gt hindex)] at hblock
      exact hedges.added index hindex block hblock
    · intro next hnext
      rcases htargets' next hnext with heq | ⟨target, htarget⟩
      · exact .inl heq
      · exact .inr (hat target next htarget).2.1
    · intro edge hedge
      obtain ⟨entry, hentry, rfl⟩ := List.mem_map.mp hedge
      obtain ⟨htarget, hlt, hblock⟩ := hat _ _ (HashMap.get?_of_mem hentry BEq.rfl)
      refine ⟨Nat.le_of_lt hlt, ⟨_, hblock⟩, .inr (originAt_eq_some_iff.mpr ⟨_, hblock⟩), ?_⟩
      rw [htargets]
      exact htarget
    · intro target htarget
      rw [htargets] at htarget
      obtain ⟨index, hindex⟩ := hresolved target htarget
      refine .inr ⟨index, ?_, originAt_eq_some_iff.mpr ⟨_, (hat target index hindex).2.2⟩, ?_⟩
      · rw [following_eq hcopy']
        exact hcovers target htarget index hindex
      · obtain ⟨entry, hentry, hkey, rfl⟩ := exists_mem_of_lookup_eq_some hindex
        rw [← beq_iff_eq.mp hkey]
        exact List.mem_map_of_mem (f := Prod.swap) hentry
  | false =>
    obtain ⟨hforce, hne⟩ := hedges.incomplete hcomplete
    have hone : mirSuccessor.targets.length ≤ 1 := by simpa using hforce
    -- the only target waits at the copy itself
    have hwait : ∀ target, mirSuccessor.targets = [target] →
        Extension encoder.procedure.encodedTargets encoder.invariantBlock method unresolved
          (fun source target =>
            source = bbi ∧ target ∈ encoder.procedure.encodedTargets bbi)
          state.1 [(method.basicBlocks.length, target)] := by
      intro target htarget
      rw [htarget] at htargets
      apply Extension.of_copy h hkeeps hcopy hedges.added
      · intro next hnext
        cases hnext
      · exact List.nodup_singleton _
      · intro edge hedge
        rw [List.mem_singleton.mp hedge, htargets]
        exact ⟨le_rfl, ⟨_, hcopy⟩, .inl (originAt_eq_some_iff.mpr ⟨_, hcopy⟩),
          List.mem_singleton_self target⟩
      · intro target' htarget'
        rw [htargets] at htarget'
        rw [List.mem_singleton.mp htarget']
        exact .inl (List.mem_singleton_self _)
    cases mirSuccessor with
    | «return» | kill => exact absurd rfl hne
    | goto target => exact ⟨_, rfl, rfl, originAt_eq_some_iff.mpr ⟨_, hcopy⟩, hwait target rfl⟩
    | gotoSwitch guardedTargets defaultTarget =>
      have hguarded : guardedTargets = [] := by simpa [MirSuccessor.targets] using hone
      subst hguarded
      exact ⟨_, rfl, rfl, originAt_eq_some_iff.mpr ⟨_, hcopy⟩, hwait defaultTarget rfl⟩

end ProcedureEncoder

end Prusti.Encoder.Procedures

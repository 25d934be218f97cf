/-
The encoding of a procedure whose loops are linkable: it returns, leaves no edge between
encoded blocks, has no cycle, and follows every path of the body.
-/
import Prusti.Encoder.LinkedLoops

namespace Prusti.Encoder.Procedures

open Prusti.Lib Prusti.Mir CfgMethod

universe u

/-- The edges of executions between blocks that are encoded. -/
def Procedure.Steps {Ty : Type u} (procedure : Procedure Ty) (source target : BasicBlock) : Prop :=
  target ∈ procedure.body.realSuccessors source ∧ procedure.isSpecBlock target = false ∧
    procedure.isUnreachableTerminator target = false

namespace ProcedureEncoder

variable {Ty : Type u}

section Properties

variable (encoder : ProcedureEncoder Ty)

/-- From a copy of a block the rest of a path is followed through copies of its blocks.  At
the end of a loop body the walk from the invariant block starts again after the invariant. -/
inductive Followed (method : CfgMethod) : BasicBlock → List BasicBlock → Nat → Prop where
  | last {bb : BasicBlock} {index : Nat} : method.originAt index = some (.copy bb) →
      Followed method bb [] index
  | step {bb target : BasicBlock} {path : List BasicBlock} {index next index' : Nat} :
      method.originAt index = some (.copy bb) → next ∈ method.following index →
      method.ReachesCopy encoder.invariantBlock bb target next index' →
      Followed method target path index' → Followed method bb (target :: path) index

/-- What the encoding of the blocks is meant to be. -/
structure LinksEveryEdge (encoded : Encoded (Option Nat)) : Prop where
  resolved : ∀ edge ∈ encoded.unresolvedEdges, edge.2 ∉ encoder.getReachableNonspecCfgBlocks
  acyclic : ∀ index, ¬ Relation.TransGen (Edge encoded.method.following) index index
  follows : ∀ path, List.IsChain encoder.procedure.Steps (startBlock :: path) → ∃ index,
    encoded.method.ReachesCopy encoder.invariantBlock startBlock startBlock startCfgBlock index ∧
      encoder.Followed encoded.method startBlock path index

/-- The start block is encoded, the terminators of the encoded blocks are implemented, and the
loops are linkable. -/
structure Linkable : Prop where
  start : encoder.procedure.isSpecBlock startBlock = false
  supported : ∀ bb ∈ encoder.getReachableNonspecCfgBlocks,
    (encoder.procedure.encodeBlockTerminator bb).isSome = true
  loops : ∀ loopHead ∈ encoder.getReachableNonspecCfgBlocks,
    encoder.loops.isLoopHead loopHead = true → ∀ inv,
      encoder.procedure.getLoopInvariantBlock encoder.loops loopHead = .ok inv →
        encoder.LinkableLoop loopHead inv

end Properties

variable {encoder : ProcedureEncoder Ty} {backEdges : List (BasicBlock × BasicBlock)}
  {method : CfgMethod} {unresolved : List (Nat × BasicBlock)} {bb loopHead : BasicBlock}

/-- The start block and the return block. -/
def startMethod : CfgMethod := ⟨[⟨.start, .undefined⟩, ⟨.return, .return⟩]⟩

theorem linking_startMethod (targets : BasicBlock → List BasicBlock)
    (invariantBlock : BasicBlock → Option BasicBlock) :
    Linking targets invariantBlock startMethod [] := by
  have hblock : ∀ (index : Nat) (block : CfgBlock),
      startMethod.basicBlocks[index]? = some block →
        block = ⟨.start, .undefined⟩ ∨ block = ⟨.return, .return⟩ := by
    intro index block hblock
    simpa [startMethod] using List.mem_of_getElem? hblock
  refine ⟨?_, rfl, List.nodup_nil, (fun _ hedge => nomatch hedge), ?_⟩
  · intro index next hnext
    obtain ⟨block, hat, hmem⟩ := mem_following_iff.mp hnext
    rcases hblock index block hat with rfl | rfl <;> nomatch hmem
  · intro index source horigin
    obtain ⟨successor, hat⟩ := originAt_eq_some_iff.mp horigin
    rcases hblock index _ hat with heq | heq <;> nomatch heq

theorem isConditionalBranch_of_getLoopInvariantBlock {inv : BasicBlock}
    (hok : encoder.procedure.getLoopInvariantBlock encoder.loops loopHead = .ok inv) :
    encoder.loops.isConditionalBranch loopHead inv = false := by
  rw [Procedure.getLoopInvariantBlock] at hok
  split at hok
  · nomatch hok
  · next hcond =>
      cases hok
      exact Bool.eq_false_iff.mpr hcond

/-- The invariant blocks of the encoded loops are cached. -/
theorem exists_invariantBlock
    (hcached : encoder.procedure.preprocessLoops encoder.loops =
      .ok encoder.cachedLoopInvariantBlock)
    (hencoded : loopHead ∈ encoder.getReachableNonspecCfgBlocks)
    (hhead : encoder.loops.isLoopHead loopHead = true) :
    ∃ inv, encoder.invariantBlock loopHead = some inv ∧
      encoder.procedure.getLoopInvariantBlock encoder.loops loopHead = .ok inv := by
  have hall := (mapM_eq_ok_iff.mp hcached).imp (S := fun bbi entry => entry.1 = bbi ∧
    encoder.procedure.getLoopInvariantBlock encoder.loops bbi = .ok entry.2) (by
      intro bbi entry hentry
      cases hok : encoder.procedure.getLoopInvariantBlock encoder.loops bbi with
      | error raised =>
        rw [hok] at hentry
        cases hentry
      | ok inv =>
        rw [hok] at hentry
        cases hentry
        exact ⟨rfl, rfl⟩)
  have hmem : loopHead ∈ encoder.getReachableNonspecCfgBlocks.filter encoder.loops.isLoopHead :=
    List.mem_filter.mpr ⟨hencoded, hhead⟩
  rw [invariantBlock]
  cases hlookup : lookup encoder.cachedLoopInvariantBlock loopHead with
  | none =>
    obtain ⟨entry, hentry, heq, -⟩ := exists_of_forall₂_mem hall hmem
    have hne := (lookup_eq_none_iff _ _).mp hlookup entry hentry
    rw [heq, BEq.rfl] at hne
    cases hne
  | some inv =>
    obtain ⟨entry, hentry, hkey, rfl⟩ := exists_mem_of_lookup_eq_some hlookup
    obtain ⟨bbi, -, rfl, hok⟩ := exists_of_forall₂_mem_right hall hentry
    rw [beq_iff_eq.mp hkey] at hok
    exact ⟨entry.2, rfl, hok⟩

section Encoding

variable (h : NaturalNest encoder.procedure.body backEdges encoder.loops.toLoopNest)
  (hordered : OrderedNest encoder.procedure.body backEdges encoder.loops)
  (hback : IsBackEdges encoder.procedure.body backEdges)

include h in
theorem isEntry_startBlock : encoder.IsEntry 0 startBlock := by
  rcases Nat.eq_zero_or_pos (encoder.loops.getLoopDepth startBlock) with hzero | hpos
  · exact .inl hzero
  obtain ⟨loopHead, hhead, hmem, hdepth⟩ := h.exists_loopHeadDepth_eq Nat.one_pos hpos
  -- only the start block dominates itself
  have heq : loopHead = startBlock := (((h.mem_loopBody hhead).mp hmem).dominates h.back).eq_root
  subst heq
  exact .inr ⟨h.getLoopDepth_of_head.trans hdepth, isLoopHead_iff.mpr hhead⟩

include h hordered hback in
theorem wellGrouped_blocks (hstart : encoder.procedure.isSpecBlock startBlock = false) :
    encoder.WellGrouped 0 encoder.getReachableNonspecCfgBlocks ∧
      encoder.getReachableNonspecCfgBlocks.head? = some startBlock := by
  have hmem : startBlock ∈ encoder.getReachableNonspecCfgBlocks :=
    (mem_getReachableNonspecCfgBlocks_iff hordered).mpr ⟨.refl, hstart⟩
  have hfirst : encoder.getReachableNonspecCfgBlocks.head? = some startBlock := by
    cases hhead : encoder.getReachableNonspecCfgBlocks.head? with
    | none =>
      rw [List.head?_eq_none_iff] at hhead
      rw [hhead] at hmem
      cases hmem
    | some bb =>
      rw [Option.some_inj]
      by_contra hne
      have hbb := (mem_getReachableNonspecCfgBlocks_iff hordered).mp (List.mem_of_mem_head? hhead)
      exact Nat.lt_asymm (hordered.order.idxOf_startBlock_lt hback hbb.1 hne)
        (idxOf_first_lt hordered.order.nodup List.filter_sublist hhead hmem (Ne.symm hne))
  refine ⟨wellGrouped h hordered (List.Sublist.refl _) (fun _ _ => Nat.zero_le _) ?_ ?_, hfirst⟩
  · intro bb hbb
    rw [hfirst] at hbb
    cases hbb
    exact isEntry_startBlock h
  · intro _ _ _ source target _ _ hedge
    have hhead : target ∈ encoder.loops.loopHeads := h.isLoopNest.mem_loopHeads.mpr ⟨source, hedge⟩
    rw [h.getLoopDepth_of_head]
    exact h.loopHeadDepth_pos hhead

/-- Where no edge between encoded blocks waits, every path is followed. -/
theorem followed_of_linking
    (hlinking : Linking encoder.procedure.encodedTargets encoder.invariantBlock method unresolved)
    (hordered : OrderedNest encoder.procedure.body backEdges encoder.loops)
    (hsupported : ∀ bb ∈ encoder.getReachableNonspecCfgBlocks,
      (encoder.procedure.encodeBlockTerminator bb).isSome = true)
    (hresolved : ∀ edge ∈ unresolved, edge.2 ∉ encoder.getReachableNonspecCfgBlocks)
    {path : List BasicBlock} {index : Nat} (hencoded : bb ∈ encoder.getReachableNonspecCfgBlocks)
    (hcopy : method.originAt index = some (.copy bb))
    (hpath : List.IsChain encoder.procedure.Steps (bb :: path)) :
    encoder.Followed method bb path index := by
  induction path generalizing bb index with
  | nil => exact .last hcopy
  | cons target path ih =>
    obtain ⟨⟨hedge, hspec, hunreachable⟩, hrest⟩ := List.isChain_cons_cons.mp hpath
    obtain ⟨mirSuccessor, hsuccessor⟩ := Option.isSome_iff_exists.mp (hsupported bb hencoded)
    have htarget : target ∈ encoder.getReachableNonspecCfgBlocks :=
      (mem_getReachableNonspecCfgBlocks_iff hordered).mpr
        ⟨((mem_getReachableNonspecCfgBlocks_iff hordered).mp hencoded).1.tail hedge, hspec⟩
    have hkept := Procedure.mem_encodedTargets hsuccessor hedge hunreachable hspec
    rcases hlinking.follows index bb hcopy target hkept with
      ⟨next, hnext, last, hlast⟩ | hwaits
    · exact .step hcopy hnext hlast (ih htarget hlast.originAt_last hrest)
    · rcases hwaits with hmem | ⟨next, -, -, hmem⟩
      · exact absurd htarget (hresolved _ hmem)
      · exact absurd htarget (hresolved _ hmem)

end Encoding

/-- The encoding of a procedure with linkable loops links every edge. -/
theorem encodeBlocks_linksEveryEdge {ε : Type} {encoder : ProcedureEncoder Ty}
    {backEdges : List (BasicBlock × BasicBlock)}
    (hback : IsBackEdges encoder.procedure.body backEdges)
    (hreach : LoopsReached encoder.procedure.body backEdges)
    (hloops : ProcedureLoops.ofBackEdges encoder.procedure.body backEdges =
      (.ok encoder.loops : Except (Stop ε) _))
    (hcached : encoder.procedure.preprocessLoops encoder.loops =
      .ok encoder.cachedLoopInvariantBlock)
    (hlinkable : encoder.Linkable) :
    ∃ encoded, encoder.encodeBlocks = .ok encoded ∧ encoder.LinksEveryEdge encoded := by
  have hordered := orderedNest_of_ofBackEdges hloops
  have h := hordered.naturalNest hback hreach
  have hsupported : ∀ bb ∈ encoder.getReachableNonspecCfgBlocks,
      ∃ mirSuccessor, encoder.procedure.encodeBlockTerminator bb = some mirSuccessor :=
    fun bb hbb => Option.isSome_iff_exists.mp (hlinkable.supported bb hbb)
  have hinvariants : ∀ loopHead ∈ encoder.getReachableNonspecCfgBlocks,
      loopHead ∈ encoder.loops.loopHeads → ∃ inv, encoder.invariantBlock loopHead = some inv ∧
        encoder.loops.isConditionalBranch loopHead inv = false ∧
          encoder.LinkableLoop loopHead inv := by
    intro loopHead hencoded hhead
    have hhead := isLoopHead_iff.mpr hhead
    obtain ⟨inv, hinv, hok⟩ := exists_invariantBlock hcached hencoded hhead
    exact ⟨inv, hinv, isConditionalBranch_of_getLoopInvariantBlock hok,
      hlinkable.loops loopHead hencoded hhead inv hok⟩
  have hencodable : ∀ bb ∈ encoder.getReachableNonspecCfgBlocks,
      encoder.Encodable (encoder.encodeLoop (encoder.loops.loopHeads.length + 1)) 0 bb := by
    intro bb hbb
    refine ⟨((mem_getReachableNonspecCfgBlocks_iff hordered).mp hbb).2, hsupported bb hbb,
      fun hdepth hhead => ?_⟩
    exact encodes_encodeLoop_of_linkable h hordered hsupported hinvariants hbb
      (isLoopHead_iff.mp hhead) (by omega)
  obtain ⟨hgroup, hfirst⟩ := wellGrouped_blocks h hordered hback hlinkable.start
  obtain ⟨encoded, hok, hextension, hcopy⟩ :=
    encodeBlocksGroup_spec (linking_startMethod _ _) hgroup hencodable
  obtain ⟨index, hindex, hle, hserves⟩ := hcopy.head_some startBlock hfirst
  refine ⟨{ encoded with method := encoded.method.setSuccessor startCfgBlock (.goto index) }, ?_,
    ?_⟩
  · rw [encodeBlocks]
    change (encoder.encodeBlocksGroup _ startMethod _ 0 >>= _) = _
    rw [hok]
    simp [bind, Except.bind, pure, Except.pure, hindex]
  have hresolved : ∀ edge ∈ encoded.unresolvedEdges,
      edge.2 ∉ encoder.getReachableNonspecCfgBlocks := by
    intro edge hedge hmem
    obtain ⟨source, -, entry, hentry, hisEntry, hleaves, hout⟩ := hcopy.leaves edge hedge
    exact hout ⟨hmem, isEntry_of_leavesEntry h hordered hisEntry hleaves hmem (Nat.zero_le _)⟩
  have hblock : encoded.method.basicBlocks[startCfgBlock]? = some ⟨.start, .undefined⟩ :=
    hextension.keeps startCfgBlock (by decide)
  have hforward : ∀ next ∈ (Successor.goto index).targets,
      next = returnCfgBlock ∨ startCfgBlock < next := by
    intro next hnext
    rw [Successor.targets, List.mem_singleton] at hnext
    subst hnext
    exact .inr (Nat.lt_of_lt_of_le (by decide) hle)
  have hlinking := hextension.linking.setSuccessor hblock (fun _ heq => by cases heq)
    (fun _ _ heq => by cases heq) hforward
  refine ⟨hresolved, hlinking.acyclic, fun path hpath => ?_⟩
  have hnext : (encoded.method.setSuccessor startCfgBlock (.goto index)).following
      startCfgBlock = [index] := by
    refine @following_eq _ _ ⟨.start, .goto index⟩ ?_
    rw [getElem?_setSuccessor, if_pos rfl, hblock]
    rfl
  have hext := Extends.setSuccessor (.goto index) hblock
  obtain ⟨first, hstart⟩ := ((hserves startBlock).extend hext).step
    (hext.originAt (originAt_eq_some_iff.mpr ⟨_, hblock⟩)) (fun _ heq => by cases heq)
    (hnext ▸ List.mem_singleton_self index)
  exact ⟨first, hstart, followed_of_linking hlinking hordered hlinkable.supported hresolved
    (List.mem_of_mem_head? hfirst) hstart.originAt_last hpath⟩

end ProcedureEncoder

namespace Witness

/-- A procedure where no borrows expire. -/
def plainProcedure (body : Body Unit) (specBasicBlocks : List BasicBlock) : Procedure Unit :=
  ⟨body, specBasicBlocks, fun _ => false, fun _ _ => false⟩

/-- `while a { invariant; }` -/
def whileInvariant : Body Unit where
  basicBlocks := [⟨[], .goto 1⟩, ⟨[], .switchInt .constant [4, 2]⟩,
    ⟨[], .switchInt .constant [3, 5]⟩, ⟨[], .goto 1⟩, ⟨[], .return⟩, ⟨[], .goto 3⟩]
  localDecls := [()]
  argCount := 0
  startBlock_lt := by decide
  argCount_lt := Nat.one_pos
  target_lt := by decide

def whileInvariantEncoder : ProcedureEncoder Unit where
  procedure := plainProcedure whileInvariant [5]
  loops := {
    loopHeads := [1]
    loopBodies := [(1, [3, 2, 5, 1])]
    backEdges := [(3, 1)]
    orderedBlocks := [0, 1, 2, 5, 3, 4]
    orderedLoopBodies := [(1, [1, 2, 5, 3])]
    loopExitBlocks := [(1, [1])]
    nonconditionalLoopBlocks := [(1, [3, 2, 1])] }
  cachedLoopInvariantBlock := [(1, 2)]

theorem linkable_whileInvariant : whileInvariantEncoder.Linkable where
  start := rfl
  supported := by decide
  loops := by
    intro loopHead hencoded hhead inv hinv
    have hone : loopHead = 1 := by
      have hall : ∀ bb ∈ whileInvariantEncoder.getReachableNonspecCfgBlocks,
          whileInvariantEncoder.loops.isLoopHead bb = true → bb = 1 := by decide
      exact hall loopHead hencoded hhead
    subst hone
    cases (show Except.ok 2 = Except.ok inv from hinv)
    exact ⟨by decide, by decide, by decide, by decide⟩

theorem isBackEdges_whileInvariant : IsBackEdges whileInvariant [(3, 1)] :=
  isBackEdges_of_findBackEdges (ε := Empty) rfl

theorem loopsReached_whileInvariant : LoopsReached whileInvariant [(3, 1)] := by
  refine loopsReached_of_same_edges (ε := Empty) (fun bb target hmem => ?_) rfl
    isBackEdges_whileInvariant
  have hall : ∀ bb < 6, ∀ target ∈ whileInvariant.successors bb,
      target ∈ whileInvariant.realSuccessors bb := by decide
  exact hall bb (Body.lt_of_mem_successors hmem) target hmem

theorem encodeBlocks_linksEveryEdge_whileInvariant :
    ∃ encoded, whileInvariantEncoder.encodeBlocks = .ok encoded ∧
      whileInvariantEncoder.LinksEveryEdge encoded :=
  ProcedureEncoder.encodeBlocks_linksEveryEdge (ε := Empty) isBackEdges_whileInvariant
    loopsReached_whileInvariant rfl rfl linkable_whileInvariant

/-- `while a { if b { if c { break; } } invariant; }` -/
def breakInBranch : Body Unit where
  basicBlocks := [⟨[], .goto 1⟩, ⟨[], .switchInt .constant [7, 2]⟩,
    ⟨[], .switchInt .constant [3, 4]⟩, ⟨[], .goto 5⟩, ⟨[], .switchInt .constant [5, 7]⟩,
    ⟨[], .switchInt .constant [6, 8]⟩, ⟨[], .goto 1⟩, ⟨[], .return⟩, ⟨[], .goto 6⟩]
  localDecls := [()]
  argCount := 0
  startBlock_lt := by decide
  argCount_lt := Nat.one_pos
  target_lt := by decide

def breakInBranchEncoder : ProcedureEncoder Unit where
  procedure := plainProcedure breakInBranch [8]
  loops := {
    loopHeads := [1]
    loopBodies := [(1, [6, 5, 8, 3, 4, 2, 1])]
    backEdges := [(6, 1)]
    orderedBlocks := [0, 1, 2, 4, 3, 5, 8, 6, 7]
    orderedLoopBodies := [(1, [1, 2, 4, 3, 5, 8, 6])]
    loopExitBlocks := [(1, [1, 4])]
    nonconditionalLoopBlocks := [(1, [6, 5, 2, 1])] }
  cachedLoopInvariantBlock := [(1, 5)]

/-- A loop that is left at its last block. -/
def doWhile : Body Unit where
  basicBlocks := [⟨[], .goto 1⟩, ⟨[], .goto 2⟩, ⟨[], .switchInt .constant [1, 3]⟩, ⟨[], .return⟩]
  localDecls := [()]
  argCount := 0
  startBlock_lt := by decide
  argCount_lt := Nat.one_pos
  target_lt := by decide

def doWhileEncoder : ProcedureEncoder Unit where
  procedure := plainProcedure doWhile []
  loops := {
    loopHeads := [1]
    loopBodies := [(1, [2, 1])]
    backEdges := [(2, 1)]
    orderedBlocks := [0, 1, 2, 3]
    orderedLoopBodies := [(1, [1, 2])]
    loopExitBlocks := [(1, [2])]
    nonconditionalLoopBlocks := [(1, [2, 1])] }
  cachedLoopInvariantBlock := [(1, 2)]

theorem reducible_breakInBranch : breakInBranch.Reducible := by
  refine Body.reducible_of_rank [0, 1, 2, 4, 3, 5, 8, 6, 7].idxOf (by decide)
    fun source target hedge => ?_
  have hall : ∀ source < 9, ∀ target ∈ breakInBranch.realSuccessors source,
      [0, 1, 2, 4, 3, 5, 8, 6, 7].idxOf source < [0, 1, 2, 4, 3, 5, 8, 6, 7].idxOf target ∨
        breakInBranch.isDominatedBy source target = true := by decide
  exact hall source (Body.lt_of_mem_successors (Body.realSuccessors_subset _ hedge)) target hedge

/-- The guard ends behind the block 4, so that its edge to the block 5 is left over; and of
the other loop nothing is left behind the invariant, so that its encoding panics. -/
theorem encodeBlocks_breakInBranch_unresolved :
    breakInBranch.Reducible ∧
      ProcedureLoops.new breakInBranch = (.ok breakInBranchEncoder.loops : Except (Stop Empty) _) ∧
      breakInBranchEncoder.procedure.preprocessLoops breakInBranchEncoder.loops =
        .ok breakInBranchEncoder.cachedLoopInvariantBlock ∧
      (∃ encoded, breakInBranchEncoder.encodeBlocks = .ok encoded ∧
        encoded.unresolvedEdges = [(12, 5), (26, 5)] ∧
          ¬ breakInBranchEncoder.LinksEveryEdge encoded) ∧
      ProcedureLoops.new doWhile = (.ok doWhileEncoder.loops : Except (Stop Empty) _) ∧
      doWhileEncoder.procedure.preprocessLoops doWhileEncoder.loops =
        .ok doWhileEncoder.cachedLoopInvariantBlock ∧
      doWhileEncoder.encodeBlocks = .error .panic := by
  refine ⟨reducible_breakInBranch, rfl, rfl, ⟨_, rfl, rfl, fun h => ?_⟩, rfl, rfl, rfl⟩
  exact h.resolved (12, 5) (by decide) (by decide)

end Witness

end Prusti.Encoder.Procedures

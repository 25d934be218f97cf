/-
What the parts of one round of the pass do to the graph that is built and to
the tables, and when they go through without a panic.
-/
import Prusti.Cfg.Visitor
import Prusti.Cfg.TopologicalSort

namespace Prusti.Cfg

open Prusti.Vir Prusti.Lib Prusti.Lib.Stop

variable {currBlock : CfgBlock}

/-- What is asked of the callbacks: the structure of the graph does not
change, and the statements that are put in place of a statement declare the
labels of this statement and no other ones. -/
structure CfgReplacer.Conforms {σ ε C A : Type} (cb : CfgReplacer σ ε C A) : Prop where
  replaceStmt_labels : ∀ {replacer stmtIndex stmt last pctxt block newCfg label
      newStmts pctxt' replacer'},
    cb.replaceStmt replacer stmtIndex stmt last pctxt block newCfg label =
      .ok (newStmts, pctxt', replacer') →
    newStmts.flatMap gatherLabels = gatherLabels stmt
  replaceSuccessor_targets : ∀ {replacer successor pctxt newStmts newSuccessor
      pctxt' replacer'},
    cb.replaceSuccessor replacer successor pctxt = .ok (newStmts, newSuccessor, pctxt', replacer') →
    newSuccessor.targets = successor.targets
  replaceSuccessor_labels : ∀ {replacer successor pctxt newStmts newSuccessor
      pctxt' replacer'},
    cb.replaceSuccessor replacer successor pctxt = .ok (newStmts, newSuccessor, pctxt', replacer') →
    newStmts.flatMap gatherLabels = []
  performPrejoinAction_labels : ∀ {replacer pctxt block action newStmts pctxt'
      replacer'},
    cb.performPrejoinAction replacer pctxt block action = .ok (newStmts, pctxt', replacer') →
    newStmts.flatMap gatherLabels = []

/-- A method is the result of adding statements and blocks to another one.
The labels were fresh; those of the blocks are not reserved. -/
structure Grown (method method' : CfgMethod) (names : List String) : Prop where
  fresh : method.FreshAll names
  uuid_eq : method'.uuid = method.uuid
  formalReturns_eq : method'.formalReturns = method.formalReturns
  localVars_eq : method'.localVars = method.localVars
  reservedLabels_eq : method'.reservedLabels = method.reservedLabels
  labels_eq : method'.labels = method.labels ++ names
  length_le : method.basicBlocks.length ≤ method'.basicBlocks.length
  blockLabels : ∃ extra, method'.basicBlocksLabels =
    method.basicBlocksLabels ++ extra ∧ ∀ label ∈ extra, label ∉ method.reservedLabels

namespace Grown

variable {method method' method'' : CfgMethod} {names names' : List String}

theorem of_extends (h : method.Extends method' names) : Grown method method' names := by
  refine ⟨h.fresh, h.uuid_eq, ?_, ?_, ?_, ?_, h.length_eq.ge, [], ?_, by simp⟩
  all_goals
    rw [h.eq]
    simp [CfgMethod.withLabels]

theorem refl (method : CfgMethod) : Grown method method [] :=
  of_extends (CfgMethod.Extends.refl method)

/-- What is fresh in a grown method was fresh before, and different from what
was added. -/
theorem freshAll_append (h : Grown method method' names)
    (h' : method'.FreshAll names') : method.FreshAll (names ++ names') := by
  refine (CfgMethod.freshAll_append _ _ _).mpr ⟨h.fresh, h'.1, ?_⟩
  intro name hname
  have hfresh := h'.2 name hname
  rw [CfgMethod.isFreshLocalName_iff] at hfresh ⊢
  obtain ⟨extra, hextra, -⟩ := h.blockLabels
  rw [h.formalReturns_eq, h.localVars_eq, h.labels_eq, hextra] at hfresh
  refine ⟨hfresh.1, hfresh.2.1, hfresh.2.2.1, ?_⟩
  intro hblock
  exact hfresh.2.2.2 (List.mem_append_left _ hblock)

theorem trans (h : Grown method method' names) (h' : Grown method' method'' names') :
    Grown method method'' (names ++ names') := by
  obtain ⟨extra, hextra, hreserved⟩ := h.blockLabels
  obtain ⟨extra', hextra', hreserved'⟩ := h'.blockLabels
  refine ⟨h.freshAll_append h'.fresh, h'.uuid_eq.trans h.uuid_eq,
    h'.formalReturns_eq.trans h.formalReturns_eq, h'.localVars_eq.trans h.localVars_eq,
    h'.reservedLabels_eq.trans h.reservedLabels_eq, ?_,
    h.length_le.trans h'.length_le, extra ++ extra', ?_, ?_⟩
  · rw [h'.labels_eq, h.labels_eq, List.append_assoc]
  · rw [hextra', hextra, List.append_assoc]
  · intro label hlabel
    rcases List.mem_append.mp hlabel with hlabel | hlabel
    · exact hreserved label hlabel
    · rw [← h.reservedLabels_eq]
      exact hreserved' label hlabel

/-- Reserved names stay fresh. -/
theorem freshAll (h : Grown method method' names) (hfresh : method.FreshAll (names ++ names'))
    (hreserved : ∀ name ∈ names', name ∈ method.reservedLabels) :
    method'.FreshAll names' := by
  obtain ⟨-, hnodup, hfresh'⟩ := (CfgMethod.freshAll_append _ _ _).mp hfresh
  refine ⟨hnodup, ?_⟩
  intro name hname
  have hfresh := hfresh' name hname
  rw [CfgMethod.isFreshLocalName_iff] at hfresh ⊢
  obtain ⟨extra, hextra, hnew⟩ := h.blockLabels
  rw [h.formalReturns_eq, h.localVars_eq, h.labels_eq, hextra]
  refine ⟨hfresh.1, hfresh.2.1, hfresh.2.2.1, ?_⟩
  intro hblock
  rcases List.mem_append.mp hblock with hblock | hblock
  · exact hfresh.2.2.2 hblock
  · exact hnew name hblock (hreserved name hname)

end Grown

section

variable {σ ε C A : Type} {cb : CfgReplacer σ ε C A} {chars : CharClass}
  {cfg : CfgMethod}

variable {visited : List Bool} {newCfg : CfgMethod} {currIndex : Nat} {walk walk' : Walk σ C}

@[simp] theorem setAt_eq_ok_iff {α : Type} (table table' : List α) (index : Nat) (value : α) :
    (setAt table index value : Except (Stop ε) (List α)) = .ok table' ↔
      index < table.length ∧ table' = table.set index value := by
  unfold setAt
  split <;> simp [*, eq_comm]

theorem noPanic_setAt {α : Type} {table : List α} {index : Nat} (value : α)
    (h : index < table.length) :
    NoPanic (setAt table index value : Except (Stop ε) (List α)) := by
  simp [setAt, h, NoPanic.ok]

theorem contextAt_eq_ok_iff (table : List (Option C)) (index : Nat) (context : C) :
    (contextAt table index : Except (Stop ε) C) = .ok context ↔
      table[index]? = some (some context) := by
  simp only [contextAt, bind_eq_ok_iff, orPanic_eq_ok_iff]
  constructor
  · rintro ⟨_, h, rfl⟩
    exact h
  · intro h
    exact ⟨_, h, rfl⟩

theorem noPanic_contextAt {table : List (Option C)} {index : Nat}
    (h : ∃ context, table[index]? = some (some context)) :
    NoPanic (contextAt table index : Except (Stop ε) C) := by
  obtain ⟨context, h⟩ := h
  rw [(contextAt_eq_ok_iff table index context).mpr h]
  exact NoPanic.ok context

/-- The blocks of the graph that jump to a block. -/
def CfgMethod.preceding (cfg : CfgMethod) (index : Nat) : List Nat :=
  (List.range cfg.basicBlocks.length).filter fun source =>
    (cfg.following source).contains index

theorem CfgMethod.mem_preceding_iff (hcfg : cfg.WellFormed chars) (source index : Nat) :
    source ∈ cfg.preceding index ↔ Edge cfg.following source index := by
  simp only [preceding, List.mem_filter, List.mem_range, List.contains_eq_mem,
    decide_eq_true_eq, Edge]
  constructor
  · exact fun h => h.2
  · exact fun h => ⟨(lt_of_mem_following hcfg.targetsInRange h).1, h⟩

theorem CfgMethod.getPreceding_eq (hcfg : cfg.WellFormed chars) (index : Nat) :
    cfg.getPreceding (cfg.blockIndex index) = some ((cfg.preceding index).map cfg.blockIndex) := by
  have huuid : cfg.uuid = (cfg.blockIndex index).methodUuid := rfl
  rw [getPreceding, if_pos huuid, preceding]
  congr 2
  apply List.filter_congr
  intro source hsource
  have hblock := List.getElem?_eq_getElem (List.mem_range.mp hsource)
  rw [hblock, following_of_getElem? hblock, Bool.eq_iff_iff]
  simp only [List.contains_eq_mem, decide_eq_true_eq, Successor.targets, List.mem_map]
  constructor
  · exact fun h => ⟨_, h, rfl⟩
  · rintro ⟨target, htarget, rfl⟩
    have huuid := (hcfg.targets_bound _ (List.getElem_mem _) target htarget).1
    have htag : cfg.blockIndex target.blockIndex = target := by
      rw [blockIndex, ← huuid]
    exact htag ▸ htarget

/-- The visited blocks in front of a block. -/
theorem incomingEdges_eq (hcfg : cfg.WellFormed chars)
    (hlength : visited.length = cfg.basicBlocks.length) (currIndex : Nat) :
    (incomingEdges cfg visited currIndex : Except (Stop ε) (List Nat)) =
      .ok ((cfg.preceding currIndex).filter fun source =>
        visited[source]? = some true) := by
  have hloop : ∀ sources incoming : List Nat,
      (∀ source ∈ sources, source < visited.length) →
      (sources.foldlM (fun incoming index => do
        let visitedHere ← orPanic visited[index]?
        pure (if visitedHere then incoming ++ [index] else incoming)) incoming :
          Except (Stop ε) (List Nat)) =
        .ok (incoming ++ sources.filter fun source =>
          visited[source]? = some true) := by
    intro sources
    induction sources with
    | nil =>
      intro incoming _
      simp [pure, Except.pure]
    | cons source sources ih =>
      intro incoming hbound
      obtain ⟨value, hvalue⟩ : ∃ value, visited[source]? = some value :=
        ⟨_, List.getElem?_eq_getElem (hbound source List.mem_cons_self)⟩
      have hrest := fun source' h =>
        hbound source' (List.mem_cons_of_mem source h)
      rw [List.foldlM_cons, bind_eq_ok_iff]
      refine ⟨if value then incoming ++ [source] else incoming, ?_, ?_⟩
      · rw [hvalue]
        rfl
      · rw [ih _ hrest]
        cases value <;> simp [hvalue]
  have hmap : ((cfg.preceding currIndex).map cfg.blockIndex).map
      (·.blockIndex) = cfg.preceding currIndex := by
    simp [CfgMethod.blockIndex, Function.comp_def]
  rw [incomingEdges, bind_eq_ok_iff]
  refine ⟨_, (orPanic_eq_ok_iff _ _).mpr (CfgMethod.getPreceding_eq hcfg _), ?_⟩
  rw [hmap, hloop, List.nil_append]
  intro source hsource
  rw [hlength]
  exact (CfgMethod.lt_of_mem_following hcfg.targetsInRange
    ((CfgMethod.mem_preceding_iff hcfg _ _).mp hsource)).1

/-- The labels that the statements of a block declare. -/
def blockLabels (block : CfgBlock) : List String := block.stmts.flatMap gatherLabels

theorem grown_of_copyBlock {newCfg' : CfgMethod}
    (h : (copyBlock newCfg currIndex currBlock : Except (Stop ε) CfgMethod) = .ok newCfg') :
    Grown newCfg newCfg' (blockLabels currBlock) := by
  simp only [copyBlock, bind_eq_ok_iff, orPanic_eq_ok_iff] at h
  obtain ⟨middle, hstmts, hsuccessor⟩ := h
  have hgrown := (Grown.of_extends (CfgMethod.extends_of_addStmts hstmts)).trans
    (.of_extends (CfgMethod.extends_of_setSuccessor hsuccessor))
  rwa [List.append_nil] at hgrown

theorem noPanic_copyBlock (hindex : currIndex < newCfg.basicBlocks.length)
    (hfresh : newCfg.FreshAll (blockLabels currBlock)) :
    NoPanic (copyBlock newCfg currIndex currBlock : Except (Stop ε) CfgMethod) := by
  refine NoPanic.bind (NoPanic.orPanic (CfgMethod.exists_addStmts hfresh hindex)) ?_
  intro middle hmiddle
  rw [orPanic_eq_ok_iff] at hmiddle
  have hextends := CfgMethod.extends_of_addStmts hmiddle
  refine NoPanic.orPanic (CfgMethod.exists_setSuccessor rfl ?_)
  exact hextends.length_eq ▸ hindex

/-- A fresh label makes a new block, whose label is not reserved. -/
theorem grown_of_freshBlock {middle newCfg' : CfgMethod} {label : String} {index : CfgBlockIndex}
    {stmts : List Stmt} (hlabel : newCfg.getFreshLabelName = some (label, middle))
    (hblock : middle.addBlock chars label stmts = some (index, newCfg')) :
    Grown newCfg newCfg' [] ∧ index.blockIndex < newCfg'.basicBlocks.length ∧
      index = newCfg'.blockIndex index.blockIndex := by
  simp only [CfgMethod.getFreshLabelName, Option.map_eq_some_iff, Prod.mk.injEq] at hlabel
  obtain ⟨⟨name, next⟩, hfind, rfl, rfl⟩ := hlabel
  obtain ⟨-, hreserved, -⟩ := CfgMethod.findFreshLabel_spec hfind
  unfold CfgMethod.addBlock at hblock
  split at hblock
  · simp only [Option.some.injEq, Prod.mk.injEq] at hblock
    obtain ⟨rfl, rfl⟩ := hblock
    refine ⟨⟨CfgMethod.freshAll_nil _, rfl, rfl, rfl, rfl, by simp, by simp,
      [name], rfl, by simpa using hreserved⟩, ?_, rfl⟩
    simp [CfgMethod.blockIndex]
  · cases hblock

theorem exists_freshBlock {middle : CfgMethod} {label : String} (stmts : List Stmt)
    (hlabel : newCfg.getFreshLabelName = some (label, middle)) :
    ∃ result, middle.addBlock chars label stmts = some result := by
  simp only [CfgMethod.getFreshLabelName, Option.map_eq_some_iff, Prod.mk.injEq] at hlabel
  obtain ⟨⟨name, next⟩, hfind, rfl, rfl⟩ := hlabel
  obtain ⟨hfresh, -, number, hname⟩ := CfgMethod.findFreshLabel_spec hfind
  have hvalid : CfgMethod.isValidLabel chars name = true :=
    hname ▸ CfgMethod.isValidLabel_fresh chars number
  have hnew : newCfg.basicBlocksLabels.all (fun l => l != name) = true := by
    have h := ((CfgMethod.isFreshLocalName_iff newCfg name).mp hfresh).2.2.2
    rw [List.all_eq_true]
    intro l hl
    exact bne_iff_ne.mpr fun heq => h (heq ▸ hl)
  refine ⟨_, if_pos ?_⟩
  rw [hvalid, Bool.true_and]
  exact hnew

theorem grown_of_prejoinEdge (hcb : cb.Conforms) {edge : Nat × A}
    (h : prejoinEdge cb chars visited currIndex walk edge = .ok walk') :
    Grown walk.newCfg walk'.newCfg [] := by
  simp only [prejoinEdge, bind_eq_ok_iff] at h
  obtain ⟨_, -, _, -, h⟩ := h
  split at h
  · rw [pure_eq_ok_iff] at h
    exact h ▸ Grown.refl _
  · simp only [bind_eq_ok_iff, orPanic_eq_ok_iff, orOutOfFuel_eq_ok_iff,
      callback_eq_ok_iff, pure_eq_ok_iff] at h
    obtain ⟨⟨label, cfg₁⟩, hlabel, ⟨index, cfg₂⟩, hblock, ⟨stmts, _, _⟩,
      hperform, cfg₃, hstmts, cfg₄, hgoto, _, -, _, -, cfg₅, hset, rfl⟩ := h
    have hstmts := Grown.of_extends (CfgMethod.extends_of_addStmts hstmts)
    rw [hcb.performPrejoinAction_labels hperform] at hstmts
    exact (((grown_of_freshBlock hlabel hblock).1.trans hstmts).trans
      (.of_extends (CfgMethod.extends_of_setSuccessor hgoto))).trans
      (.of_extends (CfgMethod.extends_of_setSuccessor hset))

theorem noPanic_prejoinEdge (hcb : cb.Conforms) {edge : Nat × A}
    (hvisited : visited[edge.1]? = some true) (hindex : edge.1 < walk.newCfg.basicBlocks.length) :
    NoPanic (prejoinEdge cb chars visited currIndex walk edge) := by
  rw [prejoinEdge, hvisited]
  refine NoPanic.bind (.orPanic ⟨true, rfl⟩) ?_
  intro visitedSrc hsrc
  rw [orPanic_eq_ok_iff, Option.some.injEq] at hsrc
  refine NoPanic.bind (.assert hsrc.symm) ?_
  intro _ _
  split
  · exact .pure walk
  refine NoPanic.bind (.orOutOfFuel walk.newCfg.exists_getFreshLabelName) ?_
  rintro ⟨label, cfg₁⟩ hlabel
  rw [orOutOfFuel_eq_ok_iff] at hlabel
  refine NoPanic.bind (.orPanic (exists_freshBlock _ hlabel)) ?_
  rintro ⟨index, cfg₂⟩ hblock
  rw [orPanic_eq_ok_iff] at hblock
  obtain ⟨hgrown, hbound, htag⟩ := grown_of_freshBlock hlabel hblock
  refine NoPanic.bind (.callback _) ?_
  rintro ⟨stmts, pctxt, replacer⟩ hperform
  rw [callback_eq_ok_iff] at hperform
  have hlabels := hcb.performPrejoinAction_labels hperform
  refine NoPanic.bind (.orPanic (CfgMethod.exists_addStmts
    (hlabels ▸ CfgMethod.freshAll_nil cfg₂) hbound)) ?_
  intro cfg₃ hstmts
  rw [orPanic_eq_ok_iff] at hstmts
  have hextends := CfgMethod.extends_of_addStmts hstmts
  have huuid : cfg₃.uuid = index.methodUuid := by
    rw [hextends.uuid_eq, htag]
    rfl
  refine NoPanic.bind (.orPanic (CfgMethod.exists_setSuccessor huuid
    (hextends.length_eq ▸ hbound))) ?_
  intro cfg₄ hgoto
  rw [orPanic_eq_ok_iff] at hgoto
  have hextends' := CfgMethod.extends_of_setSuccessor hgoto
  have hsrc' : edge.1 < cfg₄.basicBlocks.length := by
    rw [hextends'.length_eq, hextends.length_eq]
    exact hindex.trans_le hgrown.length_le
  refine NoPanic.bind (.orPanic ⟨_, List.getElem?_eq_getElem hsrc'⟩) ?_
  intro srcBlock _
  refine NoPanic.bind (.orPanic ?_) ?_
  · refine ⟨_, if_pos ?_⟩
    exact hextends'.uuid_eq.trans huuid
  intro successor _
  refine NoPanic.bind (.orPanic (CfgMethod.exists_setSuccessor rfl hsrc')) ?_
  intro cfg₅ _
  exact .pure _

/-- The loop over the incoming edges. -/
theorem grown_of_prejoin (hcb : cb.Conforms) {edges : List (Nat × A)}
    (h : edges.foldlM (prejoinEdge cb chars visited currIndex) walk = .ok walk') :
    Grown walk.newCfg walk'.newCfg [] := by
  refine foldlM_inv (fun _ walk' => Grown walk.newCfg walk'.newCfg []) edges []
    walk walk' (Grown.refl _) ?_ h
  intro _ edge _ walk₁ walk₂ _ hgrown hstep
  exact hgrown.trans (grown_of_prejoinEdge hcb hstep)

theorem noPanic_prejoin (hcb : cb.Conforms) {edges : List (Nat × A)}
    (hedges : ∀ edge ∈ edges, visited[edge.1]? = some true ∧
      edge.1 < walk.newCfg.basicBlocks.length) :
    NoPanic (edges.foldlM (prejoinEdge cb chars visited currIndex) walk) := by
  refine NoPanic.foldlM (fun _ walk' => Grown walk.newCfg walk'.newCfg []) edges
    [] walk (Grown.refl _) ?_
  intro front edge back walk₁ hsplit hgrown
  have hmem : edge ∈ edges := by
    rw [List.nil_append] at hsplit
    simp [hsplit]
  obtain ⟨hvisited, hindex⟩ := hedges edge hmem
  refine ⟨noPanic_prejoinEdge hcb hvisited (hindex.trans_le hgrown.length_le), ?_⟩
  intro walk₂ hstep
  exact hgrown.trans (grown_of_prejoinEdge hcb hstep)

/-- Pairs of a block and its context in a table. -/
def InTable (table : List (Option C)) (index : Nat) (context : C) : Prop :=
  table[index]? = some (some context)

theorem mapM_contextAt_eq_ok_iff (table : List (Option C))
    (indices : List Nat) (contexts : List C) :
    (indices.mapM (contextAt table) : Except (Stop ε) (List C)) =
      .ok contexts ↔ List.Forall₂ (InTable table) indices contexts := by
  induction indices generalizing contexts with
  | nil => rw [List.mapM_nil, pure_eq_ok_iff, List.forall₂_nil_left_iff, eq_comm]
  | cons index indices ih =>
    simp only [List.mapM_cons, bind_eq_ok_iff, contextAt_eq_ok_iff, ih,
      pure_eq_ok_iff, List.forall₂_cons_left_iff]
    constructor
    · rintro ⟨context, hcontext, rest, hrest, rfl⟩
      exact ⟨context, rest, hcontext, hrest, rfl⟩
    · rintro ⟨context, rest, hcontext, hrest, rfl⟩
      exact ⟨context, hcontext, rest, hrest, rfl⟩

theorem noPanic_mapM_contextAt {table : List (Option C)} {indices : List Nat}
    (h : ∀ index ∈ indices, ∃ context, InTable table index context) :
    NoPanic (indices.mapM (contextAt table) : Except (Stop ε) (List C)) := by
  induction indices with
  | nil => exact .pure []
  | cons index indices ih =>
    rw [List.mapM_cons]
    refine NoPanic.bind (noPanic_contextAt (h index List.mem_cons_self)) ?_
    intro context _
    refine NoPanic.bind (ih fun index' h' => h index' (List.mem_cons_of_mem _ h')) ?_
    intro rest _
    exact .pure _

/-- The visited blocks in front of a block. -/
def CfgMethod.visitedPreceding (cfg : CfgMethod) (visited : List Bool) (index : Nat) : List Nat :=
  (cfg.preceding index).filter fun source => visited[source]? = some true

/-- What is joined: the final contexts of the visited blocks in front, if
there are any. -/
theorem joinIncoming_spec (hcb : cb.Conforms) (hcfg : cfg.WellFormed chars) {pass : Pass σ C}
    {joined : Option (List C)} (hlength : pass.visited.length = cfg.basicBlocks.length)
    (h : joinIncoming cb chars cfg pass currIndex = .ok (joined, walk)) :
    Grown pass.newCfg walk.newCfg [] ∧ ∃ contexts, List.Forall₂ (InTable pass.finalPctxt)
        (cfg.visitedPreceding pass.visited currIndex) contexts ∧
        joined = if contexts.isEmpty then none else some contexts := by
  rw [joinIncoming, incomingEdges_eq hcfg hlength, bind_eq_ok_iff] at h
  obtain ⟨incoming, hincoming, h⟩ := h
  cases hincoming
  rw [bind_eq_ok_iff] at h
  obtain ⟨contexts, hcontexts, h⟩ := h
  rw [mapM_contextAt_eq_ok_iff] at hcontexts
  split at h
  · next hempty =>
      simp only [bind_eq_ok_iff, pure_eq_ok_iff, Prod.mk.injEq] at h
      obtain ⟨⟨pctxt, replacer⟩, -, rfl, rfl⟩ := h
      exact ⟨Grown.refl _, contexts, hcontexts, (if_pos hempty).symm⟩
  · next hempty =>
      simp only [bind_eq_ok_iff, pure_eq_ok_iff, Prod.mk.injEq] at h
      obtain ⟨⟨actions, pctxt, replacer⟩, -, walk', hwalk, rfl, rfl⟩ := h
      exact ⟨grown_of_prejoin hcb hwalk, contexts, hcontexts, (if_neg hempty).symm⟩

theorem noPanic_joinIncoming (hcb : cb.Conforms) (hcfg : cfg.WellFormed chars) {pass : Pass σ C}
    (hlength : pass.visited.length = cfg.basicBlocks.length)
    (hblocks : cfg.basicBlocks.length ≤ pass.newCfg.basicBlocks.length)
    (hfinal : ∀ source ∈ cfg.visitedPreceding pass.visited currIndex,
      ∃ context, InTable pass.finalPctxt source context) :
    NoPanic (joinIncoming cb chars cfg pass currIndex) := by
  rw [joinIncoming, incomingEdges_eq hcfg hlength]
  refine NoPanic.bind (.ok _) ?_
  intro incoming hincoming
  cases hincoming
  refine NoPanic.bind (noPanic_mapM_contextAt hfinal) ?_
  intro contexts _
  split
  · refine NoPanic.bind (.callback _) ?_
    rintro ⟨pctxt, replacer⟩ _
    exact .pure _
  · refine NoPanic.bind (.callback _) ?_
    rintro ⟨actions, pctxt, replacer⟩ _
    refine NoPanic.bind (noPanic_prejoin hcb ?_) ?_
    · intro edge hedge
      have hsource := (List.of_mem_zip hedge).1
      rw [List.mem_filter, decide_eq_true_eq] at hsource
      have hbound := (List.getElem?_eq_some_iff.mp hsource.2).1
      exact ⟨hsource.2, (hlength ▸ hbound).trans_le hblocks⟩
    · intro walk _
      exact .pure _

theorem extends_of_replaceStmtAt (hcb : cb.Conforms) {item : Stmt × Nat}
    (h : replaceStmtAt cb currIndex currBlock walk item = .ok walk') :
    walk.newCfg.Extends walk'.newCfg (gatherLabels item.1) := by
  simp only [replaceStmtAt, bind_eq_ok_iff, orPanic_eq_ok_iff,
    callback_eq_ok_iff, pure_eq_ok_iff] at h
  obtain ⟨⟨stmts, pctxt, replacer⟩, hreplace, newCfg, hstmts, rfl⟩ := h
  rw [← hcb.replaceStmt_labels hreplace]
  exact CfgMethod.extends_of_addStmts hstmts

theorem noPanic_replaceStmtAt (hcb : cb.Conforms) {item : Stmt × Nat}
    (hfresh : walk.newCfg.FreshAll (gatherLabels item.1))
    (hindex : currIndex < walk.newCfg.basicBlocks.length) :
    NoPanic (replaceStmtAt cb currIndex currBlock walk item) := by
  refine NoPanic.bind (.callback _) ?_
  rintro ⟨stmts, pctxt, replacer⟩ hreplace
  rw [callback_eq_ok_iff] at hreplace
  rw [← hcb.replaceStmt_labels hreplace] at hfresh
  refine NoPanic.bind (.orPanic (CfgMethod.exists_addStmts hfresh hindex)) ?_
  intro newCfg _
  exact .pure _

/-- The loop over the statements of a block. -/
theorem extends_of_replaceStmts (hcb : cb.Conforms) {items : List (Stmt × Nat)}
    (h : items.foldlM (replaceStmtAt cb currIndex currBlock) walk = .ok walk') :
    walk.newCfg.Extends walk'.newCfg (items.flatMap fun item => gatherLabels item.1) := by
  have hinv := foldlM_inv (fun done walk' => walk.newCfg.Extends walk'.newCfg
      (done.flatMap fun item => gatherLabels item.1))
    items [] walk walk' (CfgMethod.Extends.refl _) ?_ h
  · exact hinv
  intro front item _ walk₁ walk₂ _ hextends hstep
  rw [List.flatMap_append, List.flatMap_singleton]
  exact hextends.trans (extends_of_replaceStmtAt hcb hstep)

theorem noPanic_replaceStmts (hcb : cb.Conforms) {items : List (Stmt × Nat)}
    (hfresh : walk.newCfg.FreshAll (items.flatMap fun item => gatherLabels item.1))
    (hindex : currIndex < walk.newCfg.basicBlocks.length) :
    NoPanic (items.foldlM (replaceStmtAt cb currIndex currBlock) walk) := by
  refine NoPanic.foldlM (fun done walk' => walk.newCfg.Extends walk'.newCfg
      (done.flatMap fun item => gatherLabels item.1))
    items [] walk (CfgMethod.Extends.refl _) ?_
  intro front item back walk₁ hsplit hextends
  rw [List.nil_append] at hsplit
  subst hsplit
  constructor
  · refine noPanic_replaceStmtAt hcb ?_ (hextends.length_eq ▸ hindex)
    rw [List.flatMap_append, List.flatMap_cons, ← List.append_assoc] at hfresh
    exact hextends.freshAll ((CfgMethod.freshAll_append _ _ _).mp hfresh).1
  · intro walk₂ hstep
    rw [List.flatMap_append, List.flatMap_singleton]
    exact hextends.trans (extends_of_replaceStmtAt hcb hstep)

theorem zipIdx_flatMap_gatherLabels (stmts : List Stmt) (start : Nat) :
    ((stmts.zipIdx start).flatMap fun item => gatherLabels item.1) =
      stmts.flatMap gatherLabels := by
  induction stmts generalizing start with
  | nil => rfl
  | cons stmt stmts ih => rw [List.zipIdx_cons, List.flatMap_cons, List.flatMap_cons, ih]

/-- The new successor has the targets of the old one. -/
theorem replaceSuccessorAt_spec (hcb : cb.Conforms)
    (h : replaceSuccessorAt cb currIndex currBlock walk = .ok walk') :
    walk.newCfg.Extends walk'.newCfg [] ∧
      ∃ block, walk'.newCfg.basicBlocks[currIndex]? = some block ∧
        block.successor.targets = currBlock.successor.targets := by
  simp only [replaceSuccessorAt, bind_eq_ok_iff, orPanic_eq_ok_iff,
    callback_eq_ok_iff, pure_eq_ok_iff] at h
  obtain ⟨⟨stmts, successor, pctxt, replacer⟩, hreplace, middle, hstmts, _, -,
    newCfg, hset, rfl⟩ := h
  have hextends := CfgMethod.extends_of_addStmts hstmts
  rw [hcb.replaceSuccessor_labels hreplace] at hextends
  obtain ⟨block, hblock, hsuccessor⟩ := CfgMethod.successor_of_setSuccessor hset
  refine ⟨hextends.trans (CfgMethod.extends_of_setSuccessor hset), block, hblock, ?_⟩
  rw [hsuccessor, Successor.targets_replaceUuid]
  exact hcb.replaceSuccessor_targets hreplace

theorem noPanic_replaceSuccessorAt (hcb : cb.Conforms)
    (hindex : currIndex < walk.newCfg.basicBlocks.length) :
    NoPanic (replaceSuccessorAt cb currIndex currBlock walk) := by
  refine NoPanic.bind (.callback _) ?_
  rintro ⟨stmts, successor, pctxt, replacer⟩ hreplace
  rw [callback_eq_ok_iff] at hreplace
  have hlabels := hcb.replaceSuccessor_labels hreplace
  refine NoPanic.bind (.orPanic (CfgMethod.exists_addStmts
    (hlabels ▸ CfgMethod.freshAll_nil _) hindex)) ?_
  intro middle hmiddle
  rw [orPanic_eq_ok_iff] at hmiddle
  have hextends := CfgMethod.extends_of_addStmts hmiddle
  refine NoPanic.bind (.assert ?_) ?_
  · rw [hcb.replaceSuccessor_targets hreplace, BEq.rfl]
  intro _ _
  refine NoPanic.bind (.orPanic (CfgMethod.exists_setSuccessor rfl
    (hextends.length_eq ▸ hindex))) ?_
  intro newCfg _
  exact .pure _

theorem noPanic_checkBackEdges {initialPctxt : List (Option C)} {targets : List Nat}
    (h : ∀ target ∈ targets, target < visited.length ∧
      (visited[target]? = some true → ∃ context, InTable initialPctxt target context)) :
    NoPanic (targets.foldlM (fun (_ : PUnit) index =>
      checkBackEdge visited initialPctxt index) PUnit.unit : Except (Stop ε) PUnit) := by
  refine NoPanic.foldlM (fun _ _ => True) targets [] PUnit.unit trivial ?_
  intro front target back _ hsplit _
  refine ⟨?_, fun _ _ => trivial⟩
  have hmem : target ∈ targets := by
    rw [List.nil_append] at hsplit
    simp [hsplit]
  obtain ⟨hbound, hcontext⟩ := h target hmem
  refine NoPanic.bind (.orPanic ⟨_, List.getElem?_eq_getElem hbound⟩) ?_
  intro visitedTarget hvisited
  rw [orPanic_eq_ok_iff] at hvisited
  split
  · next htrue =>
      rw [htrue] at hvisited
      refine NoPanic.bind (noPanic_contextAt (hcontext hvisited)) ?_
      intro _ _
      exact .pure _
  · exact .pure _

end

end Prusti.Cfg

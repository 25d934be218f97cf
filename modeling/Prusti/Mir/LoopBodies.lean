/-
The collected bodies of loops against the natural loops of the back edges, for every order
in which the back edges are visited.
-/
import Prusti.Lib.Lists
import Prusti.Lib.Worklist
import Prusti.Mir.Loops

namespace Prusti.Mir

open Prusti.Lib Relation

universe u

variable {Ty : Type u} (body : Body Ty)

/-- The back edges of a body in some order.  Unreachable blocks have no dominators, so
nothing is said of which of their edges are back edges. -/
structure IsBackEdges (backEdges : List (BasicBlock × BasicBlock)) : Prop where
  isEdge : ∀ {source target}, (source, target) ∈ backEdges → target ∈ body.realSuccessors source
  mem_iff : ∀ {source target}, body.isReachable source = true →
    target ∈ body.realSuccessors source →
      ((source, target) ∈ backEdges ↔ body.isDominatedBy source target = true)

/-- What the body of a loop is meant to hold: the head, and the blocks it dominates from
which the source of a back edge is reached without passing through the head. -/
def NaturalLoop (backEdges : List (BasicBlock × BasicBlock)) (head bb : BasicBlock) : Prop :=
  bb = head ∨ body.isDominatedBy bb head = true ∧ ∃ source, (source, head) ∈ backEdges ∧
    ReachesAvoiding (Edge body.realSuccessors) head bb source

/-- The walk up the graph keeps to the loop: where the head jumps to itself, it is passed
by the walk, which must not leave the loop there, and the walk has to come to the head. -/
structure WalkKeepsToLoop (backEdges : List (BasicBlock × BasicBlock)) (head : BasicBlock) :
    Prop where
  dominated : head ∈ body.realSuccessors head → ∀ pred ∈ body.realPredecessors head,
    body.isDominatedBy pred head = true
  reached : ∃ source, (source, head) ∈ backEdges ∧ Reaches body.realSuccessors head source

/-- What is collected of a loop after some of its back edges. -/
structure Collects (head : BasicBlock) (sources collected : List BasicBlock) : Prop where
  contains : sources ⊆ collected
  closed : ∀ bb ∈ collected, bb ≠ head → body.realPredecessors bb ⊆ collected
  passed : head ∈ sources → body.realPredecessors head ⊆ collected
  reaches : ∀ bb ∈ collected, ∃ source ∈ sources, Reaches body.realSuccessors bb source
  avoids : ∀ bb ∈ collected, bb = head ∨
    (∃ source ∈ sources, ReachesAvoiding (Edge body.realSuccessors) head bb source) ∨
    (head ∈ sources ∧ ∃ pred ∈ body.realPredecessors head,
      ReachesAvoiding (Edge body.realSuccessors) head bb pred)

variable {body} {head source bb : BasicBlock} {sources collected collected' : List BasicBlock}
  {backEdges : List (BasicBlock × BasicBlock)}

theorem mem_realPredecessors_iff_edge {pred : BasicBlock} :
    pred ∈ body.realPredecessors bb ↔ Edge body.realSuccessors pred bb :=
  Body.mem_realPredecessors_iff

theorem collectQueue_eq_walk (fuel : Nat) (queue : List BasicBlock) :
    collectQueue body head fuel queue collected =
      (walk body.realPredecessors (decide <| · = head) fuel queue collected).map Prod.snd := by
  have hvisit : visitPredecessor head = visitMark (decide <| · = head) := by
    funext state predecessor
    by_cases heq : predecessor = head <;> simp [visitPredecessor, visitMark, heq]
  induction fuel generalizing queue collected with
  | zero => cases queue <;> rfl
  | succ fuel ih =>
    cases queue with
    | nil => rfl
    | cons current queue =>
      rw [collectQueue, walk, hvisit, ih, Option.map_map]
      rfl

/-- One back edge: a walk from its source. -/
theorem collectLoopBody_eq :
    collectLoopBody body head collected source =
      (walk body.realPredecessors (decide <| · = head) (body.basicBlocks.length + 1) [source]
        (if source ∈ collected then collected else collected ++ [source])).map Prod.snd :=
  collectQueue_eq_walk _ _

theorem mem_marked_source :
    bb ∈ (if source ∈ collected then collected else collected ++ [source]) ↔
      bb ∈ collected ∨ bb = source := by
  by_cases hsource : source ∈ collected
  · rw [if_pos hsource]
    refine ⟨.inl, ?_⟩
    rintro (h | rfl)
    · exact h
    · exact hsource
  · rw [if_neg hsource, List.mem_append, List.mem_singleton]

theorem exists_collectLoopBody (collected : List BasicBlock) (source : BasicBlock) :
    ∃ collected', collectLoopBody body head collected source = some collected' := by
  have hnext : ∀ bb, body.realPredecessors bb ⊆ body.indices := by
    intro bb pred hpred
    exact Body.mem_indices_iff.mpr (Body.lt_of_mem_successors
      (Body.realSuccessors_subset _ (Body.mem_realPredecessors_iff.mp hpred)))
  obtain ⟨result, hresult⟩ : ∃ result, walk body.realPredecessors (decide <| · = head)
      (body.basicBlocks.length + 1) [source]
      (if source ∈ collected then collected else collected ++ [source]) = some result := by
    refine exists_walk hnext ?_
    have hle := List.length_filter_le (fun bb => decide (bb ∉
      (if source ∈ collected then collected else collected ++ [source]))) body.indices
    rw [Body.indices, List.length_range] at hle
    rw [unmarked, List.length_singleton, Body.indices]
    omega
  exact ⟨result.2, by rw [collectLoopBody_eq, hresult, Option.map_some]⟩

theorem Collects.nil : Collects body head [] [] :=
  ⟨List.nil_subset _, by simp, by simp, by simp, by simp⟩

/-- What is expanded on the walk from a source leads to it, and around the head unless it is
the head itself. -/
theorem reaches_of_freshSteps {marked : List BasicBlock} {u : BasicBlock}
    (h : ReflTransGen (FreshStep body.realPredecessors (decide <| · = head) marked) source u) :
    Reaches body.realSuccessors u source ∧
      (u = source ∨ source ≠ head ∧
        ReachesAvoiding (Edge body.realSuccessors) head u source ∨
        source = head ∧ ∃ pred ∈ body.realPredecessors head,
          ReachesAvoiding (Edge body.realSuccessors) head u pred) := by
  induction h with
  | refl => exact ⟨.refl, .inl rfl⟩
  | @tail v w _ hstep ih =>
    obtain ⟨hmem, -, hstop⟩ := hstep
    have hw : w ≠ head := of_decide_eq_false hstop
    have hedge := mem_realPredecessors_iff_edge.mp hmem
    refine ⟨.head hedge ih.1, ?_⟩
    rcases ih.2 with rfl | ⟨hsource, hpath⟩ | ⟨rfl, pred, hpred, hpath⟩
    · by_cases hv : v = head
      · subst hv
        exact .inr (.inr ⟨rfl, w, hmem, .refl hw⟩)
      · exact .inr (.inl ⟨hv, .head hedge hw (.refl hv)⟩)
    · exact .inr (.inl ⟨hsource, .head hedge hw hpath⟩)
    · exact .inr (.inr ⟨rfl, pred, hpred, .head hedge hw hpath⟩)

theorem Collects.step (h : Collects body head sources collected)
    (hok : collectLoopBody body head collected source = some collected') :
    Collects body head (sources ++ [source]) collected' := by
  rw [collectLoopBody_eq, Option.map_eq_some_iff] at hok
  obtain ⟨⟨left, marked⟩, hwalk, rfl⟩ := hok
  obtain ⟨hstack, hmarked, hleft, hreach⟩ := walk_spec hwalk
  have hsource : source ∈ left := hstack source (List.mem_singleton_self source)
  have hexpanded : ∀ u ∈ left, body.realPredecessors u ⊆ marked := fun u hu pred hpred =>
    (hmarked pred).mpr (.inr ⟨u, hu, hpred⟩)
  have hold : collected ⊆ marked := fun bb hbb =>
    (hmarked bb).mpr (.inl (mem_marked_source.mpr (.inl hbb)))
  have hnew : ∀ bb ∈ marked, bb ∈ collected ∨ bb = source ∨
      ∃ u ∈ left, bb ∈ body.realPredecessors u := by
    intro bb hbb
    rcases (hmarked bb).mp hbb with hbb | hbb
    · rcases mem_marked_source.mp hbb with hbb | hbb
      · exact .inl hbb
      · exact .inr (.inl hbb)
    · exact .inr (.inr hbb)
  have hfrom : ∀ u ∈ left, ReflTransGen (FreshStep body.realPredecessors (decide <| · = head)
      (if source ∈ collected then collected else collected ++ [source])) source u := by
    intro u hu
    obtain ⟨v, hv, hpath⟩ := hreach u hu
    exact List.mem_singleton.mp hv ▸ hpath
  refine ⟨?_, ?_, ?_, ?_, ?_⟩
  · intro bb hbb
    rcases List.mem_append.mp hbb with hbb | hbb
    · exact hold (h.contains hbb)
    · exact (hmarked bb).mpr (.inl (mem_marked_source.mpr (.inr (List.mem_singleton.mp hbb))))
  · intro bb hbb hne
    rcases hleft bb hbb with hbb | hstop | hbb
    · rcases mem_marked_source.mp hbb with hbb | rfl
      · exact List.Subset.trans (h.closed bb hbb hne) hold
      · exact hexpanded bb hsource
    · exact absurd (of_decide_eq_true hstop) hne
    · exact hexpanded bb hbb
  · intro hhead
    rcases List.mem_append.mp hhead with hhead | hhead
    · exact List.Subset.trans (h.passed hhead) hold
    · exact hexpanded head (List.mem_singleton.mp hhead ▸ hsource)
  · intro bb hbb
    rcases hnew bb hbb with hbb | rfl | ⟨u, hu, hbb⟩
    · obtain ⟨source', hsource', hpath⟩ := h.reaches bb hbb
      exact ⟨source', List.mem_append_left _ hsource', hpath⟩
    · exact ⟨bb, List.mem_append_right _ (List.mem_singleton_self bb), .refl⟩
    · exact ⟨source, List.mem_append_right _ (List.mem_singleton_self source),
        .head (mem_realPredecessors_iff_edge.mp hbb) (reaches_of_freshSteps (hfrom u hu)).1⟩
  · intro bb hbb
    by_cases hne : bb = head
    · exact .inl hne
    have hlast : source ∈ sources ++ [source] :=
      List.mem_append_right _ (List.mem_singleton_self source)
    rcases hnew bb hbb with hbb | rfl | ⟨u, hu, hbb⟩
    · rcases h.avoids bb hbb with heq | ⟨source', hsource', hpath⟩ | ⟨hhead, hpred⟩
      · exact absurd heq hne
      · exact .inr (.inl ⟨source', List.mem_append_left _ hsource', hpath⟩)
      · exact .inr (.inr ⟨List.mem_append_left _ hhead, hpred⟩)
    · exact .inr (.inl ⟨bb, hlast, .refl hne⟩)
    · have hedge := mem_realPredecessors_iff_edge.mp hbb
      rcases (reaches_of_freshSteps (hfrom u hu)).2 with rfl | ⟨-, hpath⟩ |
        ⟨rfl, pred, hpred, hpath⟩
      · by_cases hu' : u = head
        · subst hu'
          exact .inr (.inr ⟨hlast, bb, hbb, .refl hne⟩)
        · exact .inr (.inl ⟨u, hlast, .head hedge hne (.refl hu')⟩)
      · exact .inr (.inl ⟨source, hlast, .head hedge hne hpath⟩)
      · exact .inr (.inr ⟨hlast, pred, hpred, .head hedge hne hpath⟩)

/-- The back edges of a head, one after the other. -/
theorem Collects.foldlM {done : List BasicBlock} (h : Collects body head done collected)
    (sources : List BasicBlock) :
    ∃ collected', sources.foldlM (collectLoopBody body head) collected = some collected' ∧
      Collects body head (done ++ sources) collected' := by
  induction sources generalizing done collected with
  | nil => exact ⟨collected, rfl, by rwa [List.append_nil]⟩
  | cons source sources ih =>
    obtain ⟨middle, hmiddle⟩ : ∃ middle,
        collectLoopBody body head collected source = some middle :=
      exists_collectLoopBody collected source
    obtain ⟨collected', hcollected', hcollects⟩ := ih (h.step hmiddle)
    refine ⟨collected', ?_, ?_⟩
    · rw [List.foldlM_cons, hmiddle]
      exact hcollected'
    · rwa [List.append_assoc] at hcollects

theorem Collects.mem_of_avoids (h : Collects body head sources collected)
    (hsource : source ∈ sources)
    (hpath : ReachesAvoiding (Edge body.realSuccessors) head bb source) : bb ∈ collected := by
  refine hpath.head_induction (h.contains hsource) fun pred succ hedge _ hsucc hmem => ?_
  exact h.closed succ hmem hsucc.1 (mem_realPredecessors_iff_edge.mpr hedge)

/-- The walk comes to the head when the head leads to a source. -/
theorem Collects.head_mem_iff (h : Collects body head sources collected) :
    head ∈ collected ↔ ∃ source ∈ sources, Reaches body.realSuccessors head source := by
  refine ⟨h.reaches head, ?_⟩
  rintro ⟨source, hsource, hpath⟩
  rcases exists_last_visit (d := head) hpath with havoid | rfl | ⟨bb, hedge, havoid⟩
  · exact absurd rfl havoid.1
  · exact h.contains hsource
  · exact h.closed bb (h.mem_of_avoids hsource havoid) havoid.1
      (mem_realPredecessors_iff_edge.mpr hedge)

theorem isDominatedBy_of_avoids (h : body.isDominatedBy source head = true)
    (hpath : ReachesAvoiding (Edge body.realSuccessors) head bb source) :
    body.isDominatedBy bb head = true := by
  rw [Body.isDominatedBy_iff] at h ⊢
  exact h.of_reachesAvoiding (hpath.mono fun _ _ hstep => Body.realSuccessors_subset _ hstep)

/-- The back edges that are found, in particular. -/
theorem isBackEdges_of_findBackEdges {ε : Type}
    (hok : (ProcedureLoops.findBackEdges body : Except (Stop ε) _) = .ok backEdges) :
    IsBackEdges body backEdges := by
  simp only [ProcedureLoops.findBackEdges, bind_eq_ok_iff, Stop.assert_eq_ok_iff,
    pure_eq_ok_iff] at hok
  obtain ⟨-, -, rfl⟩ := hok
  have hmem : ∀ {source target}, (source, target) ∈
      (body.indices.flatMap fun bb => ((body.realSuccessors bb).filter
        (body.isDominatedBy bb)).map fun target => (bb, target)).dedup ↔
      target ∈ body.realSuccessors source ∧ body.isDominatedBy source target = true := by
    intro source target
    rw [List.mem_dedup, List.mem_flatMap]
    constructor
    · rintro ⟨bb, -, hedge⟩
      obtain ⟨target', htarget, heq⟩ := List.mem_map.mp hedge
      cases heq
      exact List.mem_filter.mp htarget
    · intro hedge
      exact ⟨source, Body.mem_indices_iff.mpr (Body.lt_of_mem_successors
        (Body.realSuccessors_subset _ hedge.1)),
        List.mem_map.mpr ⟨target, List.mem_filter.mpr hedge, rfl⟩⟩
  exact ⟨fun hedge => (hmem.mp hedge).1, fun _ hedge => hmem.trans (and_iff_right hedge)⟩

theorem IsBackEdges.perm {backEdges' : List (BasicBlock × BasicBlock)}
    (h : IsBackEdges body backEdges) (hperm : backEdges.Perm backEdges') :
    IsBackEdges body backEdges' :=
  ⟨fun hedge => h.isEdge (hperm.mem_iff.mpr hedge),
    fun hreach hedge => hperm.mem_iff.symm.trans (h.mem_iff hreach hedge)⟩

/-- The sources of the back edges into a block. -/
def backEdgeSources (backEdges : List (BasicBlock × BasicBlock)) (head : BasicBlock) :
    List BasicBlock := (backEdges.filter (·.2 = head)).map Prod.fst

theorem mem_backEdgeSources_iff :
    source ∈ backEdgeSources backEdges head ↔ (source, head) ∈ backEdges := by
  rw [backEdgeSources, List.mem_map]
  constructor
  · rintro ⟨⟨source, target⟩, hedge, rfl⟩
    obtain ⟨hmem, heq⟩ := List.mem_filter.mp hedge
    exact of_decide_eq_true heq ▸ hmem
  · exact fun hmem => ⟨(source, head), List.mem_filter.mpr ⟨hmem, decide_eq_true rfl⟩, rfl⟩

theorem exists_collectBody (body : Body Ty) (backEdges : List (BasicBlock × BasicBlock))
    (head : BasicBlock) :
    ∃ collected, ProcedureLoops.collectBody body backEdges head = some (head, collected) ∧
      Collects body head (backEdgeSources backEdges head) collected := by
  have hnil : Collects body head [] [] := .nil
  obtain ⟨collected, hok, hcollects⟩ := hnil.foldlM (backEdgeSources backEdges head)
  refine ⟨collected, ?_, hcollects⟩
  rw [ProcedureLoops.collectBody, Option.bind_eq_bind, Option.bind_eq_some_iff]
  exact ⟨collected, hok, rfl⟩

/-- The loops of the back edges: their heads, and what was collected of their bodies. -/
structure IsLoopNest (body : Body Ty) (backEdges : List (BasicBlock × BasicBlock))
    (nest : LoopNest) : Prop where
  nodup : nest.loopHeads.Nodup
  mem_loopHeads : ∀ {head}, head ∈ nest.loopHeads ↔ ∃ source, (source, head) ∈ backEdges
  bodies : nest.loopBodies = nest.loopHeads.map fun head => (head, nest.loopBody head)
  collects : ∀ head ∈ nest.loopHeads,
    Collects body head (backEdgeSources backEdges head) (nest.loopBody head)

theorem lookup_map_key {α : Type} {keys : List BasicBlock} {value : BasicBlock → α}
    {key : BasicBlock} (h : key ∈ keys) :
    lookup (keys.map fun key => (key, value key)) key = some (value key) := by
  induction keys with
  | nil => cases h
  | cons first keys ih =>
    rw [List.map_cons, lookup_cons]
    by_cases heq : first = key
    · rw [if_pos (beq_iff_eq.mpr heq), heq]
    · rw [if_neg (fun hbeq => heq (eq_of_beq hbeq))]
      exact ih ((List.mem_cons.mp h).resolve_left (Ne.symm heq))

theorem exists_buildNest (body : Body Ty) (backEdges : List (BasicBlock × BasicBlock)) :
    ∃ nest, ProcedureLoops.buildNest body backEdges = some nest ∧
      IsLoopNest body backEdges nest := by
  choose collected hok hcollects using exists_collectBody body backEdges
  have hbody : ∀ {heads : List BasicBlock} {head}, head ∈ heads → LoopNest.loopBody
      ⟨heads, heads.map fun head => (head, collected head)⟩ head = collected head := by
    intro heads head hhead
    rw [LoopNest.loopBody, lookup_map_key hhead, Option.getD_some]
  refine ⟨⟨(backEdges.map Prod.snd).dedup,
    (backEdges.map Prod.snd).dedup.map fun head => (head, collected head)⟩, ?_, ?_⟩
  · rw [ProcedureLoops.buildNest, Option.bind_eq_bind, mapM_eq_map fun head _ => hok head]
    rfl
  refine ⟨List.nodup_dedup _, by simp, ?_, fun head hhead => ?_⟩
  · refine List.map_congr_left fun head hhead => ?_
    rw [hbody hhead]
  · rw [hbody hhead]
    exact hcollects head

/-- The computed body of a loop is its natural loop exactly when the walk up the graph keeps
to the loop, whatever the order of the back edges. -/
theorem loopBody_natural_iff {body : Body Ty} {backEdges : List (BasicBlock × BasicBlock)}
    (hreach : ∀ bb ∈ body.indices, body.isReachable bb = true)
    (hback : IsBackEdges body backEdges) {head : BasicBlock}
    (hhead : ∃ source, (source, head) ∈ backEdges) :
    (∃ nest, ProcedureLoops.buildNest body backEdges = some nest ∧
      ∀ bb, bb ∈ nest.loopBody head ↔ NaturalLoop body backEdges head bb) ↔
      WalkKeepsToLoop body backEdges head := by
  obtain ⟨nest, hnest, hspec⟩ := exists_buildNest body backEdges
  have hcollects := hspec.collects head (hspec.mem_loopHeads.mpr hhead)
  have hiff : ∀ {source}, head ∈ body.realSuccessors source →
      ((source, head) ∈ backEdges ↔ body.isDominatedBy source head = true) := by
    intro source hedge
    refine hback.mem_iff (hreach source (Body.mem_indices_iff.mpr ?_)) hedge
    exact Body.lt_of_mem_successors (Body.realSuccessors_subset _ hedge)
  constructor
  · rintro ⟨nest', hnest', hexact⟩
    obtain rfl := Option.some.inj (hnest.symm.trans hnest')
    constructor
    · intro hself pred hpred
      have hdom : body.isDominatedBy head head = true := Body.isDominatedBy_iff.mpr (.refl head)
      have hself' := (hiff hself).mpr hdom
      have hmem := hcollects.passed (mem_backEdgeSources_iff.mpr hself') hpred
      rcases (hexact pred).mp hmem with rfl | ⟨hpredDom, -⟩
      · exact hdom
      · exact hpredDom
    · obtain ⟨source, hsource, hpath⟩ := hcollects.head_mem_iff.mp ((hexact head).mpr (.inl rfl))
      exact ⟨source, mem_backEdgeSources_iff.mp hsource, hpath⟩
  · intro hwalk
    refine ⟨nest, hnest, fun bb => ⟨fun hbb => ?_, ?_⟩⟩
    · rcases hcollects.avoids bb hbb with rfl | ⟨source, hsource, hpath⟩ |
        ⟨hself, pred, hpred, hpath⟩
      · exact .inl rfl
      · have hsource := mem_backEdgeSources_iff.mp hsource
        have hdom := (hiff (hback.isEdge hsource)).mp hsource
        exact .inr ⟨isDominatedBy_of_avoids hdom hpath, source, hsource, hpath⟩
      · -- the predecessors of a head that jumps to itself are sources of back edges
        have hself := hback.isEdge (mem_backEdgeSources_iff.mp hself)
        have hdom := hwalk.dominated hself pred hpred
        have hsource := (hiff (Body.mem_realPredecessors_iff.mp hpred)).mpr hdom
        exact .inr ⟨isDominatedBy_of_avoids hdom hpath, pred, hsource, hpath⟩
    · rintro (rfl | ⟨-, source, hsource, hpath⟩)
      · obtain ⟨source, hsource, hpath⟩ := hwalk.reached
        exact hcollects.head_mem_iff.mpr ⟨source, mem_backEdgeSources_iff.mpr hsource, hpath⟩
      · exact hcollects.mem_of_avoids (mem_backEdgeSources_iff.mpr hsource) hpath

theorem dominates_of_isDominatedBy {dom : BasicBlock} (h : body.isDominatedBy bb dom = true) :
    Dominates (Edge body.realSuccessors) startBlock dom bb := fun hpath =>
  Body.isDominatedBy_iff.mp h (hpath.mono fun _ _ hstep => Body.realSuccessors_subset _ hstep)

theorem reaches_of_realReaches {bb' : BasicBlock} (h : Reaches body.realSuccessors bb bb') :
    Reaches body.successors bb bb' :=
  ReflTransGen.mono (fun _ _ hstep => Body.realSuccessors_subset _ hstep) _ _ h

namespace Witness

/-- The second block jumps to itself. -/
def selfLoop : Body Unit where
  basicBlocks := [⟨[], .goto 1⟩, ⟨[], .switchInt .constant [1, 2]⟩, ⟨[], .return⟩]
  localDecls := [()]
  argCount := 0
  startBlock_lt := by decide
  argCount_lt := Nat.one_pos
  target_lt := by decide

/-- The walk passes the head and collects the start block, which is not in the loop. -/
theorem loopBody_selfLoop_not_natural :
    (∀ bb ∈ selfLoop.indices, selfLoop.isReachable bb = true) ∧
      ProcedureLoops.findBackEdges selfLoop = (.ok [(1, 1)] : Except (Stop Empty) _) ∧
      (∃ nest, ProcedureLoops.buildNest selfLoop [(1, 1)] = some nest ∧ 0 ∈ nest.loopBody 1) ∧
      ¬ NaturalLoop selfLoop [(1, 1)] 1 0 := by
  refine ⟨by decide, rfl, ⟨_, rfl, by decide⟩, ?_⟩
  rintro (heq | ⟨hdom, -⟩)
  · exact absurd heq (by decide)
  · exact absurd hdom (by decide)

/-- A loop with the head 2 in a loop with the head 1. -/
def nestedLoops : Body Unit where
  basicBlocks := [⟨[], .goto 1⟩, ⟨[], .switchInt .constant [2, 5]⟩,
    ⟨[], .switchInt .constant [3, 4]⟩, ⟨[], .goto 2⟩, ⟨[], .goto 1⟩, ⟨[], .return⟩]
  localDecls := [()]
  argCount := 0
  startBlock_lt := by decide
  argCount_lt := Nat.one_pos
  target_lt := by decide

theorem isBackEdges_nestedLoops : IsBackEdges nestedLoops [(4, 1), (3, 2)] :=
  (isBackEdges_of_findBackEdges (ε := Empty) rfl).perm (List.Perm.swap _ _ _)

theorem loopBody_natural_iff_nestedLoops :
    ∃ nest, ProcedureLoops.buildNest nestedLoops [(4, 1), (3, 2)] = some nest ∧
      ∀ bb, bb ∈ nest.loopBody 1 ↔ NaturalLoop nestedLoops [(4, 1), (3, 2)] 1 bb :=
  (loopBody_natural_iff (by decide) isBackEdges_nestedLoops ⟨4, by decide⟩).mpr
    ⟨by decide, 4, by decide, .head (b := 2) (show 2 ∈ nestedLoops.realSuccessors 1 by decide)
      (.single (show 4 ∈ nestedLoops.realSuccessors 2 by decide))⟩

end Witness

end Prusti.Mir

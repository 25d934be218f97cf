/-
The topological order of the blocks: when the sort does not meet a block that is still being
visited, every block is listed once and after the sources of its forward edges.
-/
import Prusti.Lib.Positions
import Prusti.Mir.Loops

namespace Prusti.Mir

open Prusti.Lib

universe u

section Order

variable {Ty : Type u} {ε : Type} (body : Body Ty) (backEdges : List (BasicBlock × BasicBlock))

/-- A real edge that is no back edge. -/
def ForwardEdge (source target : BasicBlock) : Prop :=
  target ∈ body.realSuccessors source ∧ (source, target) ∉ backEdges

/-- The state of the sort between visits: what is listed is marked, and stands after
everything its forward edges lead to. -/
structure WellOrdered (ordering : BlockOrdering) : Prop where
  length_permanent : ordering.permanentMark.length = body.basicBlocks.length
  length_temporary : ordering.temporaryMark.length = body.basicBlocks.length
  nodup : ordering.sortedBlocks.Nodup
  marked : ∀ bb : BasicBlock, ordering.permanentMark[bb]? = some true ↔ bb ∈ ordering.sortedBlocks
  closed : ∀ front bb back, ordering.sortedBlocks = front ++ bb :: back →
    ∀ target, ForwardEdge body backEdges bb target → target ∈ front

/-- What visits change: they list blocks that were not being visited. -/
structure OrdersMore (before after : BlockOrdering) (left : List BasicBlock) : Prop where
  wellOrdered : WellOrdered body backEdges after
  sortedBlocks : after.sortedBlocks = before.sortedBlocks ++ left
  fresh : ∀ bb ∈ left, before.temporaryMark[bb]? ≠ some true
  started : ∀ bb : BasicBlock, before.temporaryMark[bb]? = some true →
    after.temporaryMark[bb]? = some true

variable {body} {backEdges} {loopDepth : BasicBlock → Nat}
  {before middle after : BlockOrdering} {left left' : List BasicBlock}

variable {current : BasicBlock} {fuel : Nat}

theorem OrdersMore.refl (h : WellOrdered body backEdges before) :
    OrdersMore body backEdges before before [] :=
  ⟨h, (List.append_nil _).symm, (fun _ hbb => nomatch hbb), fun _ hbb => hbb⟩

theorem OrdersMore.trans (h : OrdersMore body backEdges before middle left)
    (h' : OrdersMore body backEdges middle after left') :
    OrdersMore body backEdges before after (left ++ left') where
  wellOrdered := h'.wellOrdered
  sortedBlocks := by rw [h'.sortedBlocks, h.sortedBlocks, List.append_assoc]
  fresh bb hbb := by
    rcases List.mem_append.mp hbb with hbb | hbb
    · exact h.fresh bb hbb
    · exact fun hmark => h'.fresh bb hbb (h.started bb hmark)
  started bb hbb := h'.started bb (h.started bb hbb)

theorem OrdersMore.subset (h : OrdersMore body backEdges before after left) :
    before.sortedBlocks ⊆ after.sortedBlocks := by
  rw [h.sortedBlocks]
  exact List.subset_append_left _ _

/-- A visit that returns lists its block. -/
def VisitOrders (body : Body Ty) (backEdges : List (BasicBlock × BasicBlock))
    (visit : BlockOrdering → BasicBlock → Except (Stop ε) BlockOrdering) : Prop :=
  ∀ before current after, WellOrdered body backEdges before →
    visit before current = .ok after →
      (∃ left, OrdersMore body backEdges before after left) ∧ current ∈ after.sortedBlocks

theorem foldlM_visit {visit : BlockOrdering → BasicBlock → Except (Stop ε) BlockOrdering}
    (hvisit : VisitOrders body backEdges visit) {work : List BasicBlock}
    (h : WellOrdered body backEdges before) (hok : work.foldlM visit before = .ok after) :
    (∃ left, OrdersMore body backEdges before after left) ∧
      ∀ bb ∈ work, bb ∈ after.sortedBlocks := by
  induction work generalizing before with
  | nil =>
    cases hok
    exact ⟨⟨[], .refl h⟩, fun _ hbb => nomatch hbb⟩
  | cons bb work ih =>
    rw [List.foldlM_cons, bind_eq_ok_iff] at hok
    obtain ⟨middle, hmiddle, hok⟩ := hok
    obtain ⟨⟨left, hleft⟩, hmem⟩ := hvisit before bb middle h hmiddle
    obtain ⟨⟨left', hleft'⟩, hwork⟩ := ih hleft.wellOrdered hok
    refine ⟨⟨left ++ left', hleft.trans hleft'⟩, ?_⟩
    rw [List.forall_mem_cons]
    exact ⟨hleft'.subset hmem, hwork⟩

/-- A block is listed after the visits of all its successors. -/
theorem OrdersMore.finish (h : WellOrdered body backEdges before)
    (hpermanent : before.permanentMark[current]? = some false)
    (htemporary : before.temporaryMark[current]? = some false)
    (hleft : OrdersMore body backEdges
      { before with temporaryMark := before.temporaryMark.set current true } after left)
    (hsuccessors : ∀ target, ForwardEdge body backEdges current target →
      target ∈ after.sortedBlocks) :
    OrdersMore body backEdges before
      { after with
        sortedBlocks := after.sortedBlocks ++ [current]
        permanentMark := after.permanentMark.set current true } (left ++ [current]) := by
  have hlt : current < before.temporaryMark.length := (List.getElem?_eq_some_iff.mp htemporary).1
  have hafter := hleft.wellOrdered
  have hlt' : current < after.permanentMark.length := by
    rw [hafter.length_permanent, ← h.length_temporary]
    exact hlt
  have hsorted : after.sortedBlocks = before.sortedBlocks ++ left := hleft.sortedBlocks
  have hnew : current ∉ after.sortedBlocks := by
    rw [hsorted, List.mem_append, not_or]
    constructor
    · intro hmem
      rw [(h.marked current).mpr hmem] at hpermanent
      nomatch hpermanent
    · intro hmem
      exact hleft.fresh current hmem ((getElem?_set_true hlt current).mpr (.inl rfl))
  refine ⟨⟨?_, hafter.length_temporary, ?_, ?_, ?_⟩, ?_, ?_, ?_⟩
  · rw [List.length_set, hafter.length_permanent]
  · exact List.nodup_append'.mpr ⟨hafter.nodup, List.nodup_singleton current,
      List.disjoint_singleton.mpr hnew⟩
  · intro bb
    rw [getElem?_set_true hlt', hafter.marked bb, List.mem_append, List.mem_singleton, or_comm]
  · intro front bb back hsplit target hedge
    rcases List.eq_nil_or_concat back with rfl | ⟨back', last, rfl⟩
    · have hsplit' := List.append_inj' hsplit rfl
      have hbb : current = bb := List.singleton_inj.mp hsplit'.2
      rw [← hsplit'.1]
      exact hsuccessors target (hbb ▸ hedge)
    · rw [List.concat_eq_append, ← List.cons_append, ← List.append_assoc] at hsplit
      exact hafter.closed front bb back' (List.append_inj' hsplit rfl).1 target hedge
  · rw [hsorted, List.append_assoc]
  · intro bb hbb
    rcases List.mem_append.mp hbb with hbb | hbb
    · exact fun hmark => hleft.fresh bb hbb ((getElem?_set_true hlt bb).mpr (.inr hmark))
    · rw [List.mem_singleton.mp hbb, htemporary]
      exact fun heq => nomatch heq
  · exact fun bb hbb => hleft.started bb ((getElem?_set_true hlt bb).mpr (.inr hbb))

/-- The two groups of successors together are those of the forward edges. -/
theorem mem_forward_successors_iff {next : BasicBlock} :
    next ∈ ((body.realSuccessors current).filter (loopDepth · < loopDepth current) ++
        (body.realSuccessors current).filter (loopDepth current ≤ loopDepth ·)).filter
          (fun next => (current, next) ∉ backEdges) ↔
      ForwardEdge body backEdges current next := by
  simp only [List.mem_filter, List.mem_append, decide_eq_true_eq, ForwardEdge]
  refine and_congr_left fun _ => ⟨?_, fun hedge => ?_⟩
  · rintro (hedge | hedge) <;> exact hedge.1
  · rcases Nat.lt_or_ge (loopDepth next) (loopDepth current) with hlt | hge
    · exact .inl ⟨hedge, hlt⟩
    · exact .inr ⟨hedge, hge⟩

theorem WellOrdered.mark (h : WellOrdered body backEdges before) (current : BasicBlock) :
    WellOrdered body backEdges
      { before with temporaryMark := before.temporaryMark.set current true } :=
  ⟨h.length_permanent, (List.length_set ..).trans h.length_temporary, h.nodup, h.marked, h.closed⟩

theorem visitOrders_visitBlock (fuel : Nat) :
    VisitOrders body backEdges
      (visitBlock body backEdges loopDepth fuel : _ → _ → Except (Stop ε) _) := by
  induction fuel with
  | zero => exact fun _ _ _ _ hok => nomatch hok
  | succ fuel ih =>
    intro before current after h hok
    rw [visitBlock] at hok
    simp only [bind_eq_ok_iff, Stop.orPanic_eq_ok_iff] at hok
    obtain ⟨permanent, hpermanent, hok⟩ := hok
    cases permanent with
    | true =>
      cases hok
      exact ⟨⟨[], .refl h⟩, (h.marked current).mp hpermanent⟩
    | false =>
      simp only [Bool.false_eq_true, if_false, bind_eq_ok_iff,
        Stop.orPanic_eq_ok_iff, Stop.assert_eq_ok_iff, Bool.not_eq_true',
        pure_eq_ok_iff] at hok
      obtain ⟨temporary, htemporary, -, rfl, middle, hmiddle, rfl⟩ := hok
      obtain ⟨⟨left, hleft⟩, hwork⟩ := foldlM_visit ih (h.mark current) hmiddle
      refine ⟨⟨left ++ [current], .finish h hpermanent htemporary hleft ?_⟩, by simp⟩
      exact fun target hedge => hwork target (mem_forward_successors_iff.mpr hedge)

theorem orderRemaining_spec {blocks : List BasicBlock} (h : WellOrdered body backEdges before)
    (hok : (orderRemaining body backEdges loopDepth fuel before : Except (Stop ε) _) = .ok blocks) :
    ∃ after left, OrdersMore body backEdges before after left ∧
      after.permanentMark.findIdx? (!·) = none ∧ blocks = after.sortedBlocks.reverse := by
  induction fuel generalizing before with
  | zero =>
    unfold orderRemaining at hok
    cases hindex : before.permanentMark.findIdx? (!·) with
    | none =>
      rw [hindex] at hok
      cases hok
      exact ⟨before, [], .refl h, hindex, rfl⟩
    | some index =>
      rw [hindex] at hok
      nomatch hok
  | succ fuel ih =>
    unfold orderRemaining at hok
    cases hindex : before.permanentMark.findIdx? (!·) with
    | none =>
      rw [hindex] at hok
      cases hok
      exact ⟨before, [], .refl h, hindex, rfl⟩
    | some index =>
      rw [hindex] at hok
      obtain ⟨middle, hmiddle, hok⟩ := exists_of_bind_eq_ok hok
      obtain ⟨⟨left, hleft⟩, -⟩ := visitOrders_visitBlock _ before index middle h hmiddle
      obtain ⟨after, left', hleft', hrest⟩ := ih hleft.wellOrdered hok
      exact ⟨after, left ++ left', hleft.trans hleft', hrest⟩

/-- The ordered blocks are all blocks, each of them once, in a topological order. -/
structure IsBlockOrder (body : Body Ty) (backEdges : List (BasicBlock × BasicBlock))
    (blocks : List BasicBlock) : Prop where
  nodup : blocks.Nodup
  mem_iff : ∀ bb, bb ∈ blocks ↔ bb < body.basicBlocks.length
  forward : ∀ source target, ForwardEdge body backEdges source target →
    blocks.idxOf source < blocks.idxOf target

theorem wellOrdered_unmarked : WellOrdered body backEdges ⟨[],
    List.replicate body.basicBlocks.length false,
    List.replicate body.basicBlocks.length false⟩ := by
  refine ⟨List.length_replicate, List.length_replicate, List.nodup_nil, ?_, ?_⟩
  · intro bb
    simp [List.getElem?_replicate]
  · intro front bb back hsplit
    simp at hsplit

theorem isBlockOrder_of_orderBasicBlocks {blocks : List BasicBlock}
    (hok : (orderBasicBlocks body backEdges loopDepth : Except (Stop ε) _) = .ok blocks) :
    IsBlockOrder body backEdges blocks := by
  rw [orderBasicBlocks] at hok
  obtain ⟨after, left, hleft, hall, rfl⟩ := orderRemaining_spec wellOrdered_unmarked hok
  have hafter := hleft.wellOrdered
  have hmem : ∀ bb, bb ∈ after.sortedBlocks ↔ bb < body.basicBlocks.length := by
    intro bb
    rw [← hafter.marked bb, ← hafter.length_permanent]
    constructor
    · exact fun hmark => (List.getElem?_eq_some_iff.mp hmark).1
    · intro hlt
      rw [List.getElem?_eq_getElem hlt]
      have hmark := List.findIdx?_eq_none_iff.mp hall _ (List.getElem_mem hlt)
      simpa using hmark
  refine ⟨List.nodup_reverse.mpr hafter.nodup, fun bb => by rw [List.mem_reverse, hmem], ?_⟩
  intro source target hedge
  have hsource := (hmem source).mpr
    (Body.lt_of_mem_successors (Body.realSuccessors_subset _ hedge.1))
  obtain ⟨front, back, hsplit⟩ := List.append_of_mem hsource
  have htarget := hafter.closed front source back hsplit target hedge
  have hpair : List.Sublist [target, source] after.sortedBlocks := by
    rw [hsplit]
    exact List.Sublist.append (List.singleton_sublist.mpr htarget)
      (List.singleton_sublist.mpr List.mem_cons_self)
  exact idxOf_lt_of_pair_sublist (List.nodup_reverse.mpr hafter.nodup)
    (List.reverse_sublist.mpr hpair)

/-- The state of the sort while the blocks of `above` are being visited. -/
structure Started (body : Body Ty) (backEdges : List (BasicBlock × BasicBlock))
    (ordering : BlockOrdering) (above : BasicBlock → Prop) : Prop where
  wellOrdered : WellOrdered body backEdges ordering
  listed : ∀ bb ∈ ordering.sortedBlocks, ordering.temporaryMark[bb]? = some true
  started : ∀ bb : BasicBlock, ordering.temporaryMark[bb]? = some true →
    bb ∈ ordering.sortedBlocks ∨ above bb

/-- The blocks that no visit has come to yet. -/
def unstarted (body : Body Ty) (ordering : BlockOrdering) : List BasicBlock :=
  body.indices.filter fun bb => ordering.temporaryMark[bb]? ≠ some true

theorem OrdersMore.unstarted_le (h : OrdersMore body backEdges before after left) :
    (unstarted body after).length ≤ (unstarted body before).length := by
  refine (List.monotone_filter_right _ fun bb hbb => ?_).length_le
  rw [decide_eq_true_eq] at hbb ⊢
  exact fun hmark => hbb (h.started bb hmark)

theorem unstarted_set_lt (hlt : current < body.basicBlocks.length)
    (hmark : before.temporaryMark[current]? = some false) :
    (unstarted body { before with
      temporaryMark := before.temporaryMark.set current true }).length <
        (unstarted body before).length := by
  have hcurrent := (List.getElem?_eq_some_iff.mp hmark).1
  have hfilter : unstarted body { before with
      temporaryMark := before.temporaryMark.set current true } =
        (unstarted body before).filter (· ≠ current) := by
    rw [unstarted, unstarted, List.filter_filter]
    refine List.filter_congr fun bb _ => ?_
    rw [← Bool.decide_and, decide_eq_decide, ne_eq, getElem?_set_true hcurrent, not_or]
  rw [hfilter]
  apply List.length_filter_lt_length_iff_exists.mpr
  refine ⟨current, List.mem_filter.mpr ⟨Body.mem_indices_iff.mpr hlt, ?_⟩, by simp⟩
  simp [hmark]

/-- A visit returns unless it comes to a block that is being visited, and leaves only its
block behind. -/
def VisitReturns (body : Body Ty) (backEdges : List (BasicBlock × BasicBlock)) (fuel : Nat)
    (visit : BlockOrdering → BasicBlock → Except (Stop ε) BlockOrdering) : Prop :=
  ∀ before current above, Started body backEdges before above →
    (∀ bb, above bb → Relation.TransGen (ForwardEdge body backEdges) bb current) →
    current < body.basicBlocks.length → (unstarted body before).length < fuel →
      ∃ after, visit before current = .ok after ∧ Started body backEdges after above

theorem foldlM_visit_returns {visit : BlockOrdering → BasicBlock → Except (Stop ε) BlockOrdering}
    (hvisit : VisitReturns body backEdges fuel visit) (horders : VisitOrders body backEdges visit)
    {work : List BasicBlock} {above : BasicBlock → Prop} (h : Started body backEdges before above)
    (hwork : ∀ next ∈ work, next < body.basicBlocks.length ∧
      ∀ bb, above bb → Relation.TransGen (ForwardEdge body backEdges) bb next)
    (hfuel : (unstarted body before).length < fuel) :
    ∃ after, work.foldlM visit before = .ok after ∧ Started body backEdges after above := by
  induction work generalizing before with
  | nil => exact ⟨before, rfl, h⟩
  | cons next work ih =>
    rw [List.forall_mem_cons] at hwork
    obtain ⟨middle, hmiddle, hstarted⟩ := hvisit before next above h hwork.1.2 hwork.1.1 hfuel
    obtain ⟨⟨left, hleft⟩, -⟩ := horders before next middle h.wellOrdered hmiddle
    obtain ⟨after, hafter, hstarted'⟩ :=
      ih hstarted hwork.2 (Nat.lt_of_le_of_lt hleft.unstarted_le hfuel)
    refine ⟨after, ?_, hstarted'⟩
    rw [List.foldlM_cons, hmiddle]
    exact hafter

theorem visitReturns_visitBlock
    (hacyclic : ∀ bb, ¬ Relation.TransGen (ForwardEdge body backEdges) bb bb) (fuel : Nat) :
    VisitReturns body backEdges fuel
      (visitBlock body backEdges loopDepth fuel : _ → _ → Except (Stop ε) _) := by
  induction fuel with
  | zero => exact fun _ _ _ _ _ _ hfuel => absurd hfuel (Nat.not_lt_zero _)
  | succ fuel ih =>
    intro before current above h habove hlt hfuel
    have hordered := h.wellOrdered
    obtain ⟨permanent, hpermanent⟩ : ∃ mark, before.permanentMark[current]? = some mark :=
      ⟨_, List.getElem?_eq_getElem (hordered.length_permanent ▸ hlt)⟩
    obtain ⟨temporary, htemporary⟩ : ∃ mark, before.temporaryMark[current]? = some mark :=
      ⟨_, List.getElem?_eq_getElem (hordered.length_temporary ▸ hlt)⟩
    cases permanent with
    | true =>
      refine ⟨before, ?_, h⟩
      rw [visitBlock, hpermanent]
      rfl
    | false =>
      have hfresh : temporary = false := by
        rw [Bool.eq_false_iff]
        rintro rfl
        rcases h.started current htemporary with hmem | hmem
        · rw [(hordered.marked current).mpr hmem] at hpermanent
          cases hpermanent
        · exact hacyclic current (habove current hmem)
      subst hfresh
      have hcurrent := (List.getElem?_eq_some_iff.mp htemporary).1
      have hmarked : Started body backEdges
          { before with temporaryMark := before.temporaryMark.set current true }
          (fun bb => above bb ∨ bb = current) := by
        refine ⟨hordered.mark current, ?_, ?_⟩
        · exact fun bb hbb => (getElem?_set_true hcurrent bb).mpr (.inr (h.listed bb hbb))
        · intro bb hmark
          rcases (getElem?_set_true hcurrent bb).mp hmark with heq | hmark
          · exact .inr (.inr heq)
          · exact (h.started bb hmark).imp_right .inl
      have hless := unstarted_set_lt hlt htemporary
      have hwork : ∀ next ∈ ((body.realSuccessors current).filter
          (loopDepth · < loopDepth current) ++ (body.realSuccessors current).filter
          (loopDepth current ≤ loopDepth ·)).filter
            (fun next => (current, next) ∉ backEdges),
          next < body.basicBlocks.length ∧ ∀ bb, above bb ∨ bb = current →
            Relation.TransGen (ForwardEdge body backEdges) bb next := by
        intro next hnext
        have hedge := mem_forward_successors_iff.mp hnext
        refine ⟨Body.target_lt_of_mem_successors (Body.realSuccessors_subset _ hedge.1), ?_⟩
        rintro bb (hbb | rfl)
        · exact .tail (habove bb hbb) hedge
        · exact .single hedge
      obtain ⟨middle, hmiddle, hstarted⟩ := foldlM_visit_returns ih
        (visitOrders_visitBlock fuel) hmarked hwork (by omega)
      obtain ⟨⟨left, hleft⟩, -⟩ :=
        foldlM_visit (visitOrders_visitBlock fuel) (hordered.mark current) hmiddle
      have hok : (visitBlock body backEdges loopDepth (fuel + 1) before current :
          Except (Stop ε) _) = .ok { middle with
            sortedBlocks := middle.sortedBlocks ++ [current]
            permanentMark := middle.permanentMark.set current true } := by
        rw [visitBlock]
        simp only [bind_eq_ok_iff, Stop.orPanic_eq_ok_iff]
        refine ⟨false, hpermanent, ?_⟩
        simp only [Bool.false_eq_true, if_false, bind_eq_ok_iff,
          Stop.orPanic_eq_ok_iff, Stop.assert_eq_ok_iff, Bool.not_eq_true', pure_eq_ok_iff]
        exact ⟨false, htemporary, ⟨⟩, rfl, middle, hmiddle, rfl⟩
      obtain ⟨⟨listed, hmore⟩, -⟩ := visitOrders_visitBlock _ _ _ _ hordered hok
      refine ⟨_, hok, hmore.wellOrdered, ?_, ?_⟩
      · intro bb hbb
        rcases List.mem_append.mp hbb with hbb | hbb
        · exact hstarted.listed bb hbb
        · rw [List.mem_singleton.mp hbb]
          exact hleft.started current ((getElem?_set_true hcurrent current).mpr (.inl rfl))
      · intro bb hmark
        rcases hstarted.started bb hmark with hbb | hbb | rfl
        · exact .inl (List.mem_append_left _ hbb)
        · exact .inr hbb
        · exact .inl (List.mem_append_right _ (List.mem_singleton_self bb))

theorem mem_unlisted_of_findIdx (h : WellOrdered body backEdges before) {index : Nat}
    (hindex : before.permanentMark.findIdx? (!·) = some index) :
    index ∈ body.indices.filter (· ∉ before.sortedBlocks) := by
  obtain ⟨hlt, hmark, -⟩ := List.findIdx?_eq_some_iff_getElem.mp hindex
  refine List.mem_filter.mpr ⟨Body.mem_indices_iff.mpr (h.length_permanent ▸ hlt), ?_⟩
  rw [decide_eq_true_iff, ← h.marked, List.getElem?_eq_getElem hlt, Option.some_inj]
  simpa using hmark

theorem exists_orderRemaining
    (hacyclic : ∀ bb, ¬ Relation.TransGen (ForwardEdge body backEdges) bb bb)
    (h : Started body backEdges before fun _ => False)
    (hfuel : (body.indices.filter (· ∉ before.sortedBlocks)).length ≤ fuel) :
    ∃ blocks, (orderRemaining body backEdges loopDepth fuel before : Except (Stop ε) _) =
      .ok blocks := by
  induction fuel generalizing before with
  | zero =>
    unfold orderRemaining
    cases hindex : before.permanentMark.findIdx? (!·) with
    | none => exact ⟨_, rfl⟩
    | some index =>
      have hmem := mem_unlisted_of_findIdx h.wellOrdered hindex
      have hpos := List.length_pos_of_mem hmem
      omega
  | succ fuel ih =>
    unfold orderRemaining
    cases hindex : before.permanentMark.findIdx? (!·) with
    | none => exact ⟨_, rfl⟩
    | some index =>
      have hmem := mem_unlisted_of_findIdx h.wellOrdered hindex
      have hlt := Body.mem_indices_iff.mp (List.mem_of_mem_filter hmem)
      have hbound : (unstarted body before).length < body.basicBlocks.length + 1 := by
        refine Nat.lt_succ_of_le (Nat.le_trans (List.length_filter_le _ _) ?_)
        rw [Body.indices, List.length_range]
      obtain ⟨middle, hmiddle, hstarted⟩ := visitReturns_visitBlock hacyclic _ before index
        (fun _ => False) h (fun _ hnone => hnone.elim) hlt hbound
      obtain ⟨⟨left, hleft⟩, hlisted⟩ :=
        visitOrders_visitBlock _ before index middle h.wellOrdered hmiddle
      -- the index is among the blocks that were left, and now it is listed
      have hless : (body.indices.filter (· ∉ middle.sortedBlocks)).length <
          (body.indices.filter (· ∉ before.sortedBlocks)).length := by
        have hfilter : body.indices.filter (· ∉ middle.sortedBlocks) =
            (body.indices.filter (· ∉ before.sortedBlocks)).filter (· ∉ middle.sortedBlocks) := by
          rw [List.filter_filter]
          refine List.filter_congr fun bb _ => ?_
          rw [← Bool.decide_and, decide_eq_decide, iff_self_and]
          exact fun hnot hbefore => hnot (hleft.subset hbefore)
        rw [hfilter]
        exact List.length_filter_lt_length_iff_exists.mpr ⟨index, hmem, by simpa⟩
      obtain ⟨blocks, hblocks⟩ := ih hstarted (by omega)
      exact ⟨blocks, (bind_eq_ok_iff _ _ _).mpr ⟨middle, hmiddle, hblocks⟩⟩

/-- Without a cycle of forward edges the sort returns. -/
theorem exists_orderBasicBlocks
    (hacyclic : ∀ bb, ¬ Relation.TransGen (ForwardEdge body backEdges) bb bb) :
    ∃ blocks, (orderBasicBlocks body backEdges loopDepth : Except (Stop ε) _) = .ok blocks := by
  refine exists_orderRemaining hacyclic ⟨wellOrdered_unmarked, ?_, ?_⟩ ?_
  · exact fun bb hbb => nomatch hbb
  · intro bb hmark
    simp [List.getElem?_replicate] at hmark
  · refine Nat.le_trans (List.length_filter_le _ _) ?_
    rw [Body.indices, List.length_range]

end Order

end Prusti.Mir

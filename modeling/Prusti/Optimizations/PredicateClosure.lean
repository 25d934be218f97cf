/-
When the deletion of unused predicates returns a closed program: what the
methods, the functions and the kept bodies mention, against what the collectors
of names look at.
-/
import Prusti.Optimizations.UnusedPredicates

namespace Prusti.Optimizations

open Prusti.Vir Prusti.Cfg

variable {name : String}

section Mentions

variable (pick : Expr → Option String) (methods : List CfgMethod) (functions : List Function)

/-- The predicates that occur anywhere in methods and functions: in `fold` and
`unfold`, and in the nodes of interest of all expressions. -/
def mentioned : List String :=
  methods.flatMap (fun method => allFoldNames method.stmts) ++
    (methods.flatMap (fun method => method.stmtExprs ++ method.guards) ++
      functions.flatMap functionExprs).flatMap fun expr => expr.nodes.filterMap pick

/-- The predicates that occur where the collector does not look: in the
arguments of `fold` and `unfold`, and in triggers. -/
def overlooked : List String :=
  (methods.flatMap fun method => allFoldArgs method.stmts).flatMap
      (fun expr => expr.nodes.filterMap pick) ++
    (collectedExprs methods functions).flatMap fun expr => expr.hidden.filterMap pick

theorem mem_mentioned_iff (name : String) :
    name ∈ mentioned pick methods functions ↔
      name ∈ collected pick methods functions ∨ name ∈ overlooked pick methods functions := by
  have hexprs : ∀ expr,
      expr ∈ methods.flatMap (fun method => method.stmtExprs ++ method.guards) ++
        functions.flatMap functionExprs ↔
      expr ∈ collectedExprs methods functions ∨
        expr ∈ methods.flatMap fun method => allFoldArgs method.stmts := by
    intro expr
    simp only [collectedExprs, CfgMethod.stmtExprs, List.mem_append, List.mem_flatMap,
      mem_allExprs_iff]
    constructor
    · rintro (⟨method, hmethod, (h | h) | h⟩ | h)
      · exact .inl (.inl ⟨method, hmethod, .inl h⟩)
      · exact .inr ⟨method, hmethod, h⟩
      · exact .inl (.inl ⟨method, hmethod, .inr h⟩)
      · exact .inl (.inr h)
    · rintro ((⟨method, hmethod, h | h⟩ | h) | ⟨method, hmethod, h⟩)
      · exact .inl ⟨method, hmethod, .inl (.inl h)⟩
      · exact .inl ⟨method, hmethod, .inr h⟩
      · exact .inr h
      · exact .inl ⟨method, hmethod, .inl (.inr h)⟩
  simp only [mentioned, collected, overlooked, List.mem_append, List.mem_flatMap,
    List.mem_filterMap]
  constructor
  · rintro (h | ⟨expr, hexpr, node, hnode, hpick⟩)
    · exact .inl (.inl h)
    · rcases (hexprs expr).mp (by simpa using hexpr) with hexpr | hexpr
      · rcases Expr.mem_nodes_iff_walked_or_hidden.mp hnode with hnode | hnode
        · exact .inl (.inr ⟨expr, hexpr, node, hnode, hpick⟩)
        · exact .inr (.inr ⟨expr, hexpr, node, hnode, hpick⟩)
      · exact .inr (.inl ⟨expr, by simpa using hexpr, node, hnode, hpick⟩)
  · rintro ((h | ⟨expr, hexpr, node, hnode, hpick⟩) |
      (⟨expr, hexpr, node, hnode, hpick⟩ | ⟨expr, hexpr, node, hnode, hpick⟩))
    · exact .inl h
    · exact .inr ⟨expr, by simpa using (hexprs expr).mpr (.inl hexpr), node,
        Expr.mem_nodes_iff_walked_or_hidden.mpr (.inl hnode), hpick⟩
    · exact .inr ⟨expr, by simpa using (hexprs expr).mpr (.inr (by simpa using hexpr)),
        node, hnode, hpick⟩
    · exact .inr ⟨expr, by simpa using (hexprs expr).mpr (.inl hexpr), node,
        Expr.mem_nodes_iff_walked_or_hidden.mpr (.inr hnode), hpick⟩

end Mentions

/-- The body of a predicate. -/
def bodyExpr? : Predicate → Option Expr
  | .struct predicate => predicate.body
  | .enum predicate => some predicate.body
  | .bodyless _ _ => none

/-- The predicates that occur in the body of a predicate. -/
def bodyMentioned (pick : Expr → Option String) (predicate : Predicate) : List String :=
  (bodyExpr? predicate).toList.flatMap fun body => body.nodes.filterMap pick

/-- The predicates that occur in the triggers of the body of a predicate. -/
def bodyOverlooked (pick : Expr → Option String) (predicate : Predicate) : List String :=
  (bodyExpr? predicate).toList.flatMap fun body => body.hidden.filterMap pick

section Bodies

theorem walked_binOp (kind : BinOpKind) (left right : Expr) (pos : Position) :
    (Expr.binOp kind left right pos).walked =
      .binOp kind left right pos :: (left.walked ++ right.walked) := by
  rw [Expr.walked_eq]
  simp [Expr.children]

/-- The predicates used in a conjunction are used in the conjuncts. -/
theorem mem_used_conjoin {conjuncts : List Expr}
    (h : name ∈ (Expr.conjoin conjuncts).walked.filterMap usedPredicate?) :
    ∃ conjunct ∈ conjuncts, name ∈ conjunct.walked.filterMap usedPredicate? := by
  induction conjuncts with
  | nil => cases h
  | cons conjunct conjuncts ih =>
    rw [Expr.conjoin, Expr.mkAnd, Expr.mkBinOp, walked_binOp,
      List.filterMap_cons_none rfl, List.filterMap_append, List.mem_append] at h
    rcases h with h | h
    · exact ⟨conjunct, List.mem_cons_self, h⟩
    · obtain ⟨other, hother, hname⟩ := ih h
      exact ⟨other, List.mem_cons_of_mem _ hother, hname⟩

theorem mem_used_variantParts {predicate : EnumPredicate} {variant : EnumVariant} {part : Expr}
    (hpart : part ∈ predicate.variantParts variant)
    (h : name ∈ part.walked.filterMap usedPredicate?) :
    name ∈ variant.guard.walked.filterMap usedPredicate? ∨ name = variant.predicate.name := by
  unfold EnumPredicate.variantParts at hpart
  split at hpart
  · cases hpart
  · rw [List.mem_singleton.mp hpart] at h
    simp only [Expr.mkAnd, Expr.implies, Expr.mkBinOp, walked_binOp] at h
    rw [List.filterMap_cons_none rfl, List.filterMap_append, List.mem_append,
      List.filterMap_cons_none rfl, List.filterMap_append, List.mem_append] at h
    rcases h with h | h | h
    · cases h
    · exact .inl h
    · exact .inr (List.mem_singleton.mp h)

/-- The walkers find what the body of a predicate uses outside of triggers. -/
theorem mem_usedInPredicate {predicate : Predicate} {body : Expr}
    (hbody : bodyExpr? predicate = some body) (h : name ∈ body.walked.filterMap usedPredicate?) :
    ∃ used, usedInPredicate predicate = some used ∧ name ∈ used := by
  cases predicate with
  | struct predicate =>
    have hbody : predicate.body = some body := hbody
    refine ⟨_, ?_, h⟩
    rw [usedInPredicate, hbody]
    rfl
  | enum predicate =>
    cases hbody
    refine ⟨_, rfl, ?_⟩
    obtain ⟨conjunct, hconjunct, hname⟩ := mem_used_conjoin h
    rw [List.mem_append, List.mem_append, List.mem_flatMap]
    rcases List.mem_cons.mp hconjunct with rfl | hconjunct
    · cases hname
    rcases List.mem_cons.mp hconjunct with rfl | hconjunct
    · exact .inl (.inr hname)
    · obtain ⟨variant, hvariant, hpart⟩ := List.mem_flatMap.mp hconjunct
      refine .inr ⟨variant, hvariant, ?_⟩
      rw [List.mem_append, List.mem_cons]
      rcases mem_used_variantParts hpart hname with hname | hname
      · exact .inl hname
      · exact .inr (.inl hname)
  | bodyless => cases hbody

end Bodies

/-- Every predicate that is mentioned is kept, and every predicate that is
folded, unfolded or occurs in an unfolding keeps its body. -/
structure ClosedProgram (methods : List CfgMethod) (functions : List Function)
    (predicates result : List Predicate) : Prop where
  kept : ∀ predicate ∈ predicates,
    (predicate.name ∈ mentioned usedPredicate? methods functions ∨
      ∃ other ∈ result, predicate.name ∈ bodyMentioned usedPredicate? other) →
    ∃ other ∈ result, other.name = predicate.name
  bodies : ∀ predicate ∈ predicates,
    (predicate.name ∈ mentioned foldedPredicate? methods functions ∨
      ∃ other ∈ result, predicate.name ∈ bodyMentioned foldedPredicate? other) →
    predicate ∈ result

/-- Does the predicate have a body that can be eliminated? -/
def hasStructBody : Predicate → Bool
  | .struct predicate => predicate.body.isSome
  | _ => false

/-- What the collectors overlook is mentioned elsewhere, too. -/
structure CollectorsSuffice (methods : List CfgMethod) (functions : List Function)
    (predicates : List Predicate) : Prop where
  program : ∀ predicate ∈ predicates,
    predicate.name ∈ overlooked usedPredicate? methods functions →
      Kept methods functions predicates predicate.name
  triggers : ∀ predicate ∈ predicates, ∀ other ∈ predicates,
    Kept methods functions predicates other.name → predicate.name ∈ bodyOverlooked usedPredicate?
        (keptPredicate methods functions other) →
      Kept methods functions predicates predicate.name
  unfoldings : ∀ predicate ∈ predicates, hasStructBody predicate = true →
    predicate.name ∉ foldedPredicates methods functions →
      predicate.name ∉ overlooked foldedPredicate? methods functions ∧
      ∀ other ∈ predicates, Kept methods functions predicates other.name →
        predicate.name ∉ bodyMentioned foldedPredicate? (keptPredicate methods functions other)

section Closed

variable {methods : List CfgMethod} {functions : List Function}
  {predicates : List Predicate}

theorem usedPredicate?_of_folded {node : Expr} (h : foldedPredicate? node = some name) :
    usedPredicate? node = some name := by
  cases node with
  | unfolding => exact h
  | _ => cases h

theorem mem_filterMap_of_folded {nodes : List Expr} (h : name ∈ nodes.filterMap foldedPredicate?) :
    name ∈ nodes.filterMap usedPredicate? := by
  obtain ⟨node, hnode, hname⟩ := List.mem_filterMap.mp h
  exact List.mem_filterMap.mpr ⟨node, hnode, usedPredicate?_of_folded hname⟩

theorem collected_of_folded (h : name ∈ collected foldedPredicate? methods functions) :
    name ∈ collected usedPredicate? methods functions := by
  unfold collected at h
  unfold collected
  rw [List.mem_append, List.mem_flatMap (l := collectedExprs methods functions)] at h ⊢
  rcases h with h | ⟨expr, hexpr, h⟩
  · exact .inl h
  · exact .inr ⟨expr, hexpr, mem_filterMap_of_folded h⟩

theorem overlooked_of_folded (h : name ∈ overlooked foldedPredicate? methods functions) :
    name ∈ overlooked usedPredicate? methods functions := by
  unfold overlooked at h ⊢
  rw [List.mem_append, List.mem_flatMap, List.mem_flatMap] at h ⊢
  rcases h with ⟨expr, hexpr, h⟩ | ⟨expr, hexpr, h⟩
  · exact .inl ⟨expr, hexpr, mem_filterMap_of_folded h⟩
  · exact .inr ⟨expr, hexpr, mem_filterMap_of_folded h⟩

theorem bodyMentioned_of_folded {predicate : Predicate}
    (h : name ∈ bodyMentioned foldedPredicate? predicate) :
    name ∈ bodyMentioned usedPredicate? predicate := by
  unfold bodyMentioned at h ⊢
  rw [List.mem_flatMap] at h ⊢
  obtain ⟨body, hbody, h⟩ := h
  exact ⟨body, hbody, mem_filterMap_of_folded h⟩

/-- What the body of a kept predicate mentions is found or in a trigger. -/
theorem kept_or_overlooked {other : Predicate} (hother : other ∈ predicates)
    (hkept : Kept methods functions predicates other.name)
    (h : name ∈ bodyMentioned usedPredicate? (keptPredicate methods functions other)) :
    Kept methods functions predicates name ∨
      name ∈ bodyOverlooked usedPredicate? (keptPredicate methods functions other) := by
  unfold bodyMentioned at h
  obtain ⟨body, hbody, h⟩ := List.mem_flatMap.mp h
  obtain ⟨node, hnode, hname⟩ := List.mem_filterMap.mp h
  rcases Expr.mem_nodes_iff_walked_or_hidden.mp hnode with hnode | hnode
  · left
    obtain ⟨used, hused, hmem⟩ := mem_usedInPredicate (Option.mem_toList.mp hbody)
      (List.mem_filterMap.mpr ⟨node, hnode, hname⟩)
    exact .body hother hkept hused hmem
  · right
    exact List.mem_flatMap.mpr ⟨body, hbody, List.mem_filterMap.mpr ⟨node, hnode, hname⟩⟩

/-- A predicate with nothing to lose is kept as it is. -/
theorem keptPredicate_eq_iff (predicate : Predicate) :
    keptPredicate methods functions predicate = predicate ↔
      (hasStructBody predicate = true → predicate.name ∈ foldedPredicates methods functions) := by
  unfold keptPredicate
  cases predicate with
  | struct predicate =>
    cases hfolded : (foldedPredicates methods functions).contains predicate.name with
    | true =>
      rw [eliminateBody_of_folded hfolded]
      rw [List.contains_iff_mem] at hfolded
      exact ⟨fun _ _ => hfolded, fun _ => rfl⟩
    | false =>
      rw [eliminateBody_of_not_folded hfolded]
      have hnot : predicate.name ∉ foldedPredicates methods functions := by
        rw [← List.contains_iff_mem, hfolded]
        decide
      obtain ⟨name, this, body⟩ := predicate
      cases body with
      | none => exact ⟨fun _ h => (nomatch h), fun _ => rfl⟩
      | some body =>
        constructor
        · intro heq
          cases heq
        · intro h
          exact absurd (h rfl) hnot
  | enum | bodyless => exact ⟨fun _ h => (nomatch h), fun _ => rfl⟩

/-- The pass returns a closed program exactly when nothing hinges on what the
collectors overlook. -/
theorem deleteUnusedPredicates_closed_iff (methods : List CfgMethod)
    (functions : List Function) (predicates : List Predicate)
    (hnodup : (predicates.map Predicate.name).Nodup) :
    ClosedProgram methods functions predicates
        (deleteUnusedPredicates methods functions predicates) ↔
      CollectorsSuffice methods functions predicates := by
  have hresult : ∀ result,
      result ∈ deleteUnusedPredicates methods functions predicates ↔
        ∃ predicate ∈ predicates, Kept methods functions predicates predicate.name ∧
          keptPredicate methods functions predicate = result :=
    mem_deleteUnusedPredicates_iff hnodup
  have hname : ∀ predicate, (keptPredicate methods functions predicate).name =
      predicate.name := name_eliminateBody _
  constructor
  · rintro ⟨hkept, hbodies⟩
    have hreturned : ∀ predicate : Predicate,
        (∃ other ∈ deleteUnusedPredicates methods functions predicates,
          other.name = predicate.name) →
        Kept methods functions predicates predicate.name := by
      rintro predicate ⟨_, hmem, heq⟩
      obtain ⟨other, -, hother, rfl⟩ := (hresult _).mp hmem
      rw [hname] at heq
      exact heq ▸ hother
    have hunchanged : ∀ predicate ∈ predicates,
        predicate ∈ deleteUnusedPredicates methods functions predicates →
        hasStructBody predicate = true →
        predicate.name ∈ foldedPredicates methods functions := by
      intro predicate hpredicate hmem
      obtain ⟨other, hother, -, heq⟩ := (hresult predicate).mp hmem
      have hsame : other = predicate := by
        apply List.inj_on_of_nodup_map hnodup hother hpredicate
        rw [← hname other, heq]
      exact (keptPredicate_eq_iff predicate).mp (hsame ▸ heq)
    refine ⟨?_, ?_, ?_⟩
    · intro predicate hpredicate hover
      apply hreturned
      apply hkept predicate hpredicate
      exact .inl ((mem_mentioned_iff _ _ _ _).mpr (.inr hover))
    · intro predicate hpredicate other hother hotherKept hover
      apply hreturned
      refine hkept predicate hpredicate
        (.inr ⟨_, (hresult _).mpr ⟨other, hother, hotherKept, rfl⟩, ?_⟩)
      obtain ⟨body, hbody, hover⟩ := List.mem_flatMap.mp hover
      obtain ⟨node, hnode, hpick⟩ := List.mem_filterMap.mp hover
      refine List.mem_flatMap.mpr ⟨body, hbody, List.mem_filterMap.mpr ⟨node, ?_, hpick⟩⟩
      exact Expr.mem_nodes_iff_walked_or_hidden.mpr (.inr hnode)
    · intro predicate hpredicate hstruct hfolded
      constructor
      · intro hover
        apply hfolded
        refine hunchanged predicate hpredicate ?_ hstruct
        apply hbodies predicate hpredicate
        exact .inl ((mem_mentioned_iff _ _ _ _).mpr (.inr hover))
      · intro other hother hotherKept hmentioned
        apply hfolded
        refine hunchanged predicate hpredicate ?_ hstruct
        apply hbodies predicate hpredicate
        exact .inr ⟨_, (hresult _).mpr ⟨other, hother, hotherKept, rfl⟩, hmentioned⟩
  · rintro ⟨hprogram, htriggers, hunfoldings⟩
    have hkept : ∀ predicate ∈ predicates,
        (predicate.name ∈ mentioned usedPredicate? methods functions ∨
          ∃ other ∈ deleteUnusedPredicates methods functions predicates,
            predicate.name ∈ bodyMentioned usedPredicate? other) →
        Kept methods functions predicates predicate.name := by
      rintro predicate hpredicate (hmentioned | ⟨_, hmem, hmentioned⟩)
      · rcases (mem_mentioned_iff _ _ _ _).mp hmentioned with hfound | hover
        · exact .used (List.mem_cons_of_mem _ hfound)
        · exact hprogram predicate hpredicate hover
      · obtain ⟨other, hother, hotherKept, rfl⟩ := (hresult _).mp hmem
        rcases kept_or_overlooked hother hotherKept hmentioned with hkept | hover
        · exact hkept
        · exact htriggers predicate hpredicate other hother hotherKept hover
    refine ⟨?_, ?_⟩
    · intro predicate hpredicate hmentioned
      refine ⟨_, (hresult _).mpr ⟨predicate, hpredicate, ?_, rfl⟩, hname predicate⟩
      exact hkept predicate hpredicate hmentioned
    · intro predicate hpredicate hmentioned
      refine (hresult _).mpr ⟨predicate, hpredicate, ?_, ?_⟩
      · apply hkept predicate hpredicate
        rcases hmentioned with hmentioned | ⟨other, hother, hmentioned⟩
        · left
          rw [mem_mentioned_iff] at hmentioned ⊢
          rcases hmentioned with hfound | hover
          · exact .inl (collected_of_folded hfound)
          · exact .inr (overlooked_of_folded hover)
        · exact .inr ⟨other, hother, bodyMentioned_of_folded hmentioned⟩
      · rw [keptPredicate_eq_iff]
        intro hstruct
        by_contra hfolded
        obtain ⟨hover, hmention⟩ := hunfoldings predicate hpredicate hstruct hfolded
        rcases hmentioned with hmentioned | ⟨_, hmem, hmentioned⟩
        · rcases (mem_mentioned_iff _ _ _ _).mp hmentioned with hfound | hover'
          · exact hfolded hfound
          · exact hover hover'
        · obtain ⟨other, hother, hotherKept, rfl⟩ := (hresult _).mp hmem
          exact hmention other hother hotherKept hmentioned

end Closed

namespace Witness

def selfVar : LocalVar := ⟨"self", .typedRef "Q"⟩

/-- `predicate Q(self) { true }` -/
def innerPredicate : Predicate := .struct ⟨"Q", selfVar, some (Expr.ofBool true)⟩

/-- `predicate P(self) { unfolding Q(self) in true }` -/
def outerPredicate : Predicate :=
  .struct ⟨"P", selfVar, some (.unfolding "Q" [Expr.ofLocal selfVar]
    (Expr.ofBool true) .write none Position.default)⟩

/-- `unfold P(self)` -/
def unfoldingMethod : CfgMethod :=
  { CfgMethod.new 0 "m" 0 [] [selfVar] [] with
    basicBlocks := [⟨[.unfold "P" [Expr.ofLocal selfVar] .write none], .ret⟩] }

theorem deleteUnusedPredicates_closed_iff_unfolding :
    ([outerPredicate, innerPredicate].map Predicate.name).Nodup ∧
      (ClosedProgram [unfoldingMethod] [] [outerPredicate, innerPredicate]
        (deleteUnusedPredicates [unfoldingMethod] [] [outerPredicate, innerPredicate]) ↔
      CollectorsSuffice [unfoldingMethod] [] [outerPredicate, innerPredicate]) :=
  ⟨by decide, deleteUnusedPredicates_closed_iff _ _ _ (by decide)⟩

/-- The inner predicate loses its body, but it is unfolded in the body of the
outer one. -/
theorem deleteUnusedPredicates_not_closed_unfolding :
    ¬ ClosedProgram [unfoldingMethod] [] [outerPredicate, innerPredicate]
      (deleteUnusedPredicates [unfoldingMethod] [] [outerPredicate, innerPredicate]) := by
  have hresult : deleteUnusedPredicates [unfoldingMethod] []
      [outerPredicate, innerPredicate] = [outerPredicate, .struct ⟨"Q", selfVar, none⟩] := rfl
  rw [hresult]
  intro h
  have hmem := h.bodies innerPredicate (by simp) (.inr ⟨outerPredicate, by simp, by decide⟩)
  simp [innerPredicate, outerPredicate] at hmem

end Witness

end Prusti.Optimizations

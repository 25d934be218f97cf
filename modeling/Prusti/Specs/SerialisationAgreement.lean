/-
The identifiers that are written out, serialised and looked up again are the same ones.
-/
import Mathlib.Data.List.Nodup
import Mathlib.Data.List.Perm.Basic
import Mathlib.Data.Prod.Basic
import Prusti.Lib.Names
import Prusti.Specs.RoundTrip
import Prusti.Specs.Typed

namespace Prusti.Specs

open Prusti.Lib

section Keys

variable {E A : Type}

def TriggerSet.keys (triggers : TriggerSet Nat E) : List (SpecificationId × Nat) :=
  triggers.flatMap fun trigger => trigger.map fun leaf => (leaf.specId, leaf.id)

namespace Assertion

mutual

/-- The ids in an assertion, in the order in which they are given. -/
def keys : Assertion Nat E A → List (SpecificationId × Nat)
  | .expr leaf => [(leaf.specId, leaf.id)]
  | .and assertions => keysEach assertions
  | .implies lhs rhs => keys lhs ++ keys rhs
  | .typeCond vars body => (vars.specId, vars.id) :: keys body
  | .forAll vars triggers body => (vars.specId, vars.id) :: (triggers.keys ++ keys body)
  | .exist vars triggers body => (vars.specId, vars.id) :: (triggers.keys ++ keys body)
  | .specEntailment closure argBinders pres posts =>
    (closure.specId, closure.id) :: (argBinders.specId, argBinders.preId) ::
      (argBinders.specId, argBinders.postId) :: (keysEach pres ++ keysEach posts)

def keysEach : List (Assertion Nat E A) → List (SpecificationId × Nat)
  | [] => []
  | assertion :: rest => keys assertion ++ keysEach rest

end

end Assertion

end Keys

/-- The ids are numbered one after the other, between two states of the generator. -/
structure Numbered (specId : SpecificationId) (gen : ExpressionIdGenerator)
    (keys : List (SpecificationId × Nat)) (gen' : ExpressionIdGenerator) : Prop where
  keys_eq : keys = (List.range' (gen.lastId + 1) keys.length).map (Prod.mk specId)
  lastId_eq : gen'.lastId = gen.lastId + keys.length

namespace Numbered

variable {specId : SpecificationId} {gen gen' gen'' : ExpressionIdGenerator}
  {keys keys' : List (SpecificationId × Nat)}

theorem nil (specId : SpecificationId) (gen : ExpressionIdGenerator) :
    Numbered specId gen [] gen := ⟨rfl, rfl⟩

theorem generate (specId : SpecificationId) (gen : ExpressionIdGenerator) :
    Numbered specId gen [(specId, gen.generate.1)] gen.generate.2 := ⟨rfl, rfl⟩

theorem append (h : Numbered specId gen keys gen') (h' : Numbered specId gen' keys' gen'') :
    Numbered specId gen (keys ++ keys') gen'' := by
  constructor
  · have hsecond := h'.keys_eq
    rw [h.lastId_eq, Nat.add_right_comm] at hsecond
    rw [List.length_append, ← List.range'_append_1, List.map_append, ← h.keys_eq, ← hsecond]
  · rw [h'.lastId_eq, h.lastId_eq, List.length_append, Nat.add_assoc]

theorem cons (h : Numbered specId gen.generate.2 keys gen') :
    Numbered specId gen ((specId, gen.generate.1) :: keys) gen' :=
  (generate specId gen).append h

theorem nodup (h : Numbered specId gen keys gen') : keys.Nodup := by
  rw [h.keys_eq]
  exact List.Nodup.map (Prod.mk_right_injective specId) List.nodup_range'

theorem specId_of_mem (h : Numbered specId gen keys gen') {key : SpecificationId × Nat}
    (hmem : key ∈ keys) : key.1 = specId := by
  rw [h.keys_eq] at hmem
  obtain ⟨id, _, rfl⟩ := List.mem_map.mp hmem
  rfl

end Numbered

theorem identifier_injective (specId : SpecificationId) : Function.Injective (identifier specId) :=
  (append_left_injective (specId.display ++ "_")).comp toString_injective

/-- Within one specification the identifiers are distinct. -/
theorem Numbered.nodup_identifiers {specId : SpecificationId}
    {gen gen' : ExpressionIdGenerator} {keys : List (SpecificationId × Nat)}
    (h : Numbered specId gen keys gen') :
    (keys.map fun key => identifier key.1 key.2).Nodup := by
  refine List.Nodup.map_on ?_ h.nodup
  intro key hmem key' hmem' heq
  have hspec := h.specId_of_mem hmem
  have hspec' := h.specId_of_mem hmem'
  rw [hspec, hspec'] at heq
  exact Prod.ext (hspec.trans hspec'.symm) (identifier_injective specId heq)

section Assign

variable {E T : Type} {specId : SpecificationId} {gen gen' : ExpressionIdGenerator}

theorem Trigger.numbered_assignId (trigger : Trigger Unit E) (gen : ExpressionIdGenerator) :
    Numbered specId gen
      ((Trigger.assignId specId trigger gen).1.map fun leaf => (leaf.specId, leaf.id))
      (Trigger.assignId specId trigger gen).2 := by
  induction trigger generalizing gen with
  | nil => exact .nil specId gen
  | cons expr rest ih => exact .cons (ih gen.generate.2)

theorem TriggerSet.numbered_assignId (triggers : TriggerSet Unit E) (gen : ExpressionIdGenerator) :
    Numbered specId gen (TriggerSet.assignId specId triggers gen).1.keys
      (TriggerSet.assignId specId triggers gen).2 := by
  induction triggers generalizing gen with
  | nil => exact .nil specId gen
  | cons trigger rest ih => exact (trigger.numbered_assignId gen).append (ih _)

namespace Assertion

mutual

/-- Ids are given one after the other. -/
theorem numbered_assignId (assertion : AssertionWithoutId E T)
    {result : UntypedAssertion E T} {gen gen' : ExpressionIdGenerator}
    (h : assertion.assignId specId gen = .ok (result, gen')) :
    Numbered specId gen result.keys gen' := by
  match assertion with
  | .expr leaf =>
    cases h
    exact .generate specId gen
  | .and assertions =>
    obtain ⟨⟨results, gen₁⟩, hassertions, h⟩ := exists_of_bind_eq_ok h
    cases h
    exact numbered_assignIdEach assertions hassertions
  | .implies lhs rhs =>
    obtain ⟨⟨lhs', gen₁⟩, hlhs, h⟩ := exists_of_bind_eq_ok h
    obtain ⟨⟨rhs', gen₂⟩, hrhs, h⟩ := exists_of_bind_eq_ok h
    cases h
    exact (numbered_assignId lhs hlhs).append (numbered_assignId rhs hrhs)
  | .forAll vars triggers body =>
    obtain ⟨⟨body', gen₁⟩, hbody, h⟩ := exists_of_bind_eq_ok h
    cases h
    exact .cons ((triggers.numbered_assignId _).append (numbered_assignId body hbody))
  | .exist vars triggers body =>
    obtain ⟨⟨body', gen₁⟩, hbody, h⟩ := exists_of_bind_eq_ok h
    cases h
    exact .cons ((triggers.numbered_assignId _).append (numbered_assignId body hbody))
  | .specEntailment closure argBinders pres posts =>
    obtain ⟨⟨pres', gen₁⟩, hpres, h⟩ := exists_of_bind_eq_ok h
    obtain ⟨⟨posts', gen₂⟩, hposts, h⟩ := exists_of_bind_eq_ok h
    cases h
    exact .cons (.cons (.cons ((numbered_assignIdEach pres hpres).append
      (numbered_assignIdEach posts hposts))))
  | .typeCond _ _ => cases h

theorem numbered_assignIdEach (assertions : List (AssertionWithoutId E T))
    {results : List (UntypedAssertion E T)} {gen gen' : ExpressionIdGenerator}
    (h : assignIdEach specId assertions gen = .ok (results, gen')) :
    Numbered specId gen (keysEach results) gen' := by
  match assertions with
  | [] =>
    cases h
    exact .nil specId gen
  | assertion :: rest =>
    obtain ⟨⟨result, gen₁⟩, hassertion, h⟩ := exists_of_bind_eq_ok h
    obtain ⟨⟨results', gen₂⟩, hrest, h⟩ := exists_of_bind_eq_ok h
    cases h
    exact (numbered_assignId assertion hassertion).append (numbered_assignIdEach rest hrest)

end

mutual

/-- What has ids is written out. -/
theorem exists_encodeTypeCheck (assertion : AssertionWithoutId E T)
    {result : UntypedAssertion E T} {gen gen' : ExpressionIdGenerator}
    (h : assertion.assignId specId gen = .ok (result, gen')) :
    ∃ calls, result.encodeTypeCheck = .ok calls := by
  match assertion with
  | .expr leaf =>
    cases h
    exact ⟨_, rfl⟩
  | .and assertions =>
    obtain ⟨⟨results, gen₁⟩, hassertions, h⟩ := exists_of_bind_eq_ok h
    cases h
    exact exists_encodeTypeCheckEach assertions hassertions
  | .implies lhs rhs =>
    obtain ⟨⟨lhs', gen₁⟩, hlhs, h⟩ := exists_of_bind_eq_ok h
    obtain ⟨⟨rhs', gen₂⟩, hrhs, h⟩ := exists_of_bind_eq_ok h
    cases h
    obtain ⟨first, hfirst⟩ := exists_encodeTypeCheck lhs hlhs
    obtain ⟨second, hsecond⟩ := exists_encodeTypeCheck rhs hrhs
    exact ⟨first ++ second, by rw [encodeTypeCheck, hfirst, hsecond]; rfl⟩
  | .forAll vars triggers body =>
    obtain ⟨⟨body', gen₁⟩, hbody, h⟩ := exists_of_bind_eq_ok h
    cases h
    obtain ⟨nested, hnested⟩ := exists_encodeTypeCheck body hbody
    exact ⟨_, by rw [encodeTypeCheck, hnested]; rfl⟩
  | .exist vars triggers body =>
    obtain ⟨⟨body', gen₁⟩, hbody, h⟩ := exists_of_bind_eq_ok h
    cases h
    obtain ⟨nested, hnested⟩ := exists_encodeTypeCheck body hbody
    exact ⟨_, by rw [encodeTypeCheck, hnested]; rfl⟩
  | .specEntailment closure argBinders pres posts =>
    obtain ⟨⟨pres', gen₁⟩, hpres, h⟩ := exists_of_bind_eq_ok h
    obtain ⟨⟨posts', gen₂⟩, hposts, h⟩ := exists_of_bind_eq_ok h
    cases h
    obtain ⟨nested, hnested⟩ := exists_encodeTypeCheckEach pres hpres
    obtain ⟨nested', hnested'⟩ := exists_encodeTypeCheckEach posts hposts
    exact ⟨_, by rw [encodeTypeCheck, hnested, hnested']; rfl⟩
  | .typeCond _ _ => cases h

theorem exists_encodeTypeCheckEach (assertions : List (AssertionWithoutId E T))
    {results : List (UntypedAssertion E T)} {gen gen' : ExpressionIdGenerator}
    (h : assignIdEach specId assertions gen = .ok (results, gen')) :
    ∃ calls, encodeTypeCheckEach results = .ok calls := by
  match assertions with
  | [] =>
    cases h
    exact ⟨_, rfl⟩
  | assertion :: rest =>
    obtain ⟨⟨result, gen₁⟩, hassertion, h⟩ := exists_of_bind_eq_ok h
    obtain ⟨⟨results', gen₂⟩, hrest, h⟩ := exists_of_bind_eq_ok h
    cases h
    obtain ⟨first, hfirst⟩ := exists_encodeTypeCheck assertion hassertion
    obtain ⟨others, hothers⟩ := exists_encodeTypeCheckEach rest hrest
    exact ⟨first ++ others, by rw [encodeTypeCheckEach, hfirst, hothers]; rfl⟩

end

end Assertion

end Assign

section Written

variable {E A : Type}

/-- The identifiers of all closures. -/
def writtenIdentifiers (calls : List (TypeckCall E A)) : List String :=
  (TypeckCall.closuresAll calls).map TypeckCall.identifier

/-- The identifiers of the ids of an assertion. -/
def keyIdentifiers (keys : List (SpecificationId × Nat)) : List String :=
  keys.map fun key => identifier key.1 key.2

theorem keyIdentifiers_append (left right : List (SpecificationId × Nat)) :
    keyIdentifiers (left ++ right) = keyIdentifiers left ++ keyIdentifiers right :=
  List.map_append

theorem TypeckCall.closuresAll_append (left right : List (TypeckCall E A)) :
    closuresAll (left ++ right) = closuresAll left ++ closuresAll right := by
  induction left with
  | nil => rfl
  | cons call left ih => rw [List.cons_append, closuresAll, ih, closuresAll, List.append_assoc]

theorem writtenIdentifiers_append (left right : List (TypeckCall E A)) :
    writtenIdentifiers (left ++ right) = writtenIdentifiers left ++ writtenIdentifiers right := by
  rw [writtenIdentifiers, TypeckCall.closuresAll_append, List.map_append]
  rfl

theorem writtenIdentifiers_nested (identifier : String) (params : List A)
    (body rest : List (TypeckCall E A)) :
    writtenIdentifiers (.nested identifier params body :: rest) =
      identifier :: (writtenIdentifiers body ++ writtenIdentifiers rest) := by
  rw [writtenIdentifiers, TypeckCall.closuresAll, TypeckCall.closures, List.cons_append,
    List.map_cons, List.map_append]
  rfl

theorem Trigger.writtenIdentifiers (trigger : Trigger Nat E) :
    writtenIdentifiers (trigger.map (Expression.encodeUntyped (A := A))) =
      keyIdentifiers (trigger.map fun leaf => (leaf.specId, leaf.id)) := by
  induction trigger with
  | nil => rfl
  | cons leaf rest ih => exact congrArg (leaf.identifier :: ·) ih

theorem TriggerSet.writtenIdentifiers (triggers : TriggerSet Nat E) :
    writtenIdentifiers (triggers.encodeTypeCheck (A := A)) = keyIdentifiers triggers.keys := by
  induction triggers with
  | nil => rfl
  | cons trigger rest ih =>
    have hcons : encodeTypeCheck (A := A) (trigger :: rest) =
        trigger.map Expression.encodeUntyped ++ encodeTypeCheck rest := List.flatMap_cons
    have hkeys : keys (trigger :: rest) =
        trigger.map (fun leaf => (leaf.specId, leaf.id)) ++ keys rest := List.flatMap_cons
    rw [hcons, writtenIdentifiers_append, trigger.writtenIdentifiers, ih, hkeys,
      keyIdentifiers_append]

namespace Assertion

/-- The closure of a quantifier, with what is written out in it. -/
theorem writtenIdentifiers_quantifier {vars : QuantifierVars Nat A}
    {triggers : TriggerSet Nat E} {nested : List (TypeckCall E A)}
    {keys : List (SpecificationId × Nat)}
    (h : (writtenIdentifiers nested).Perm (keyIdentifiers keys)) :
    (writtenIdentifiers [vars.typeckCall triggers nested]).Perm
      (keyIdentifiers ((vars.specId, vars.id) :: (triggers.keys ++ keys))) := by
  rw [QuantifierVars.typeckCall, writtenIdentifiers_nested, writtenIdentifiers_append,
    triggers.writtenIdentifiers]
  simp only [keyIdentifiers, List.map_cons, List.map_append] at h ⊢
  refine List.Perm.cons _ ?_
  rw [show writtenIdentifiers ([] : List (TypeckCall E A)) = [] from rfl, List.append_nil]
  exact (h.append_right _).trans List.perm_append_comm

mutual

/-- What is written out has the identifiers of the ids. -/
theorem writtenIdentifiers_perm (assertion : Assertion Nat E A)
    {calls : List (TypeckCall E A)} (h : assertion.encodeTypeCheck = .ok calls) :
    (writtenIdentifiers calls).Perm (keyIdentifiers assertion.keys) := by
  match assertion with
  | .expr leaf =>
    cases h
    exact .refl _
  | .and assertions => exact writtenIdentifiers_perm_each assertions h
  | .implies lhs rhs =>
    obtain ⟨first, hfirst, h⟩ := exists_of_bind_eq_ok h
    obtain ⟨second, hsecond, h⟩ := exists_of_bind_eq_ok h
    cases h
    rw [writtenIdentifiers_append, keys, keyIdentifiers_append]
    exact (writtenIdentifiers_perm lhs hfirst).append (writtenIdentifiers_perm rhs hsecond)
  | .forAll vars triggers body =>
    obtain ⟨nested, hnested, h⟩ := exists_of_bind_eq_ok h
    cases h
    exact writtenIdentifiers_quantifier (writtenIdentifiers_perm body hnested)
  | .exist vars triggers body =>
    obtain ⟨nested, hnested, h⟩ := exists_of_bind_eq_ok h
    cases h
    exact writtenIdentifiers_quantifier (writtenIdentifiers_perm body hnested)
  | .specEntailment closure argBinders pres posts =>
    obtain ⟨nested, hnested, h⟩ := exists_of_bind_eq_ok h
    obtain ⟨nested', hnested', h⟩ := exists_of_bind_eq_ok h
    cases h
    have hpres := writtenIdentifiers_perm_each pres hnested
    have hposts := writtenIdentifiers_perm_each posts hnested'
    have hwritten : writtenIdentifiers [closure.encodeUntyped, argBinders.preCall nested,
        argBinders.postCall nested'] = closure.identifier :: argBinders.preIdentifier ::
          (writtenIdentifiers nested ++
            argBinders.postIdentifier :: (writtenIdentifiers nested' ++ [])) := by
      simp only [writtenIdentifiers, TypeckCall.closuresAll, TypeckCall.closures,
        SpecEntailmentVars.preCall, SpecEntailmentVars.postCall, Expression.encodeUntyped,
        List.map_append, List.map_cons, List.map_nil, List.cons_append, List.nil_append]
      rfl
    rw [hwritten, List.append_nil]
    refine .cons _ (.cons _ (List.perm_middle.trans (.cons _ ?_)))
    rw [List.map_append]
    exact hpres.append hposts
  | .typeCond _ _ => cases h

theorem writtenIdentifiers_perm_each (assertions : List (Assertion Nat E A))
    {calls : List (TypeckCall E A)} (h : encodeTypeCheckEach assertions = .ok calls) :
    (writtenIdentifiers calls).Perm (keyIdentifiers (keysEach assertions)) := by
  match assertions with
  | [] =>
    cases h
    exact .refl _
  | assertion :: rest =>
    obtain ⟨first, hfirst, h⟩ := exists_of_bind_eq_ok h
    obtain ⟨others, hothers, h⟩ := exists_of_bind_eq_ok h
    cases h
    rw [writtenIdentifiers_append, keysEach, keyIdentifiers_append]
    exact (writtenIdentifiers_perm assertion hfirst).append
      (writtenIdentifiers_perm_each rest hothers)

end

end Assertion

end Written

section Visited

variable {E A D L : Type} {rustc : Rustc E A D L}

/-- The visitor finds the definition of a closure by its identifier, whatever the order in
which it visits the closures. -/
theorem typedExpressions_eq {visited : List (TypeckCall E A)} {call : TypeckCall E A}
    (hmem : call ∈ visited)
    (hunique : ∀ other ∈ visited, other.identifier = call.identifier → other = call) :
    typedExpressions rustc visited call.identifier = some (rustc.localDefId call) := by
  induction visited using List.reverseRecOn with
  | nil => cases hmem
  | append_singleton visited last ih =>
    rw [typedExpressions, List.foldl_append, List.foldl_cons, List.foldl_nil]
    by_cases heq : last.identifier = call.identifier
    · rw [heq, Function.update_self, hunique last (by simp) heq]
    · rw [Function.update_of_ne (Ne.symm heq)]
      have hvisited : call ∈ visited := by
        rcases List.mem_append.mp hmem with hmem | hmem
        · exact hmem
        · rw [List.mem_singleton.mp hmem] at heq
          exact absurd rfl heq
      exact ih hvisited fun other hother => hunique other (List.mem_append_left _ hother)

variable {exprs : String → Option D}

/-- The map knows these closures. -/
def Knows (rustc : Rustc E A D L) (exprs : String → Option D) (calls : List (TypeckCall E A)) :
    Prop :=
  ∀ call ∈ TypeckCall.closuresAll calls, exprs call.identifier = some (rustc.localDefId call)

theorem Knows.append {left right : List (TypeckCall E A)} (h : Knows rustc exprs (left ++ right)) :
    Knows rustc exprs left ∧ Knows rustc exprs right := by
  rw [Knows, TypeckCall.closuresAll_append] at h
  exact ⟨fun call hmem => h call (List.mem_append_left _ hmem),
    fun call hmem => h call (List.mem_append_right _ hmem)⟩

theorem Knows.head {call : TypeckCall E A} {rest : List (TypeckCall E A)}
    (h : Knows rustc exprs (call :: rest)) :
    exprs call.identifier = some (rustc.localDefId call) := by
  refine h call (List.mem_append_left _ ?_)
  cases call <;> exact List.mem_cons_self

theorem Knows.body {identifier : String} {params : List A} {body rest : List (TypeckCall E A)}
    (h : Knows rustc exprs (.nested identifier params body :: rest)) :
    Knows rustc exprs body :=
  fun call hmem => h call (List.mem_append_left _ (List.mem_cons_of_mem _ hmem))

theorem Knows.tail {call : TypeckCall E A} {rest : List (TypeckCall E A)}
    (h : Knows rustc exprs (call :: rest)) : Knows rustc exprs rest :=
  fun other hmem => h other (List.mem_append_right _ hmem)

theorem lookupExpr_eq {specId : SpecificationId} {id : Nat} {localId : D}
    (h : exprs (identifier specId id) = some localId) :
    lookupExpr exprs specId id = .ok (localId, [identifier specId id]) := by
  rw [lookupExpr, h]
  rfl

/-- The closure has the number of parameters that is asserted. -/
theorem closureArgs_eq (call : TypeckCall E A) :
    closureArgs rustc (rustc.localDefId call) call.params.length = .ok (rustc.vars call) := by
  have hlength := rustc.length_argsIter call
  simp [closureArgs, Rustc.vars, hlength, Stop.assert]

theorem toTypedTrigger_eq (trigger : Trigger Nat E)
    (h : Knows (A := A) rustc exprs (trigger.map Expression.encodeUntyped)) :
    toTypedTrigger exprs (trigger.map Expression.toStructure) =
      .ok (trigger.map fun leaf =>
          ⟨leaf.specId, leaf.id, rustc.localDefId leaf.encodeUntyped⟩,
        keyIdentifiers (trigger.map fun leaf => (leaf.specId, leaf.id))) := by
  induction trigger with
  | nil => rfl
  | cons leaf rest ih =>
    rw [List.map_cons, toTypedTrigger, ih h.tail, Json.Expression.toTyped,
      Expression.toStructure, lookupExpr_eq h.head]
    rfl

theorem toTypedTriggerSet_eq (triggers : TriggerSet Nat E)
    (h : Knows (A := A) rustc exprs triggers.encodeTypeCheck) :
    toTypedTriggerSet exprs triggers.toStructure =
      .ok (triggers.typed rustc, keyIdentifiers triggers.keys) := by
  induction triggers with
  | nil => rfl
  | cons trigger rest ih =>
    have hsplit : Knows rustc exprs (trigger.map Expression.encodeUntyped ++
        TriggerSet.encodeTypeCheck rest) := h
    have hkeys : TriggerSet.keys (trigger :: rest) =
        trigger.map (fun leaf => (leaf.specId, leaf.id)) ++ TriggerSet.keys rest :=
      List.flatMap_cons
    have hrest := ih hsplit.append.2
    rw [TriggerSet.toStructure] at hrest ⊢
    rw [List.map_cons, toTypedTriggerSet, toTypedTrigger_eq trigger hsplit.append.1, hrest,
      hkeys, keyIdentifiers_append]
    rfl

theorem QuantifierVars.toTyped_eq {vars : QuantifierVars Nat A} {triggers : TriggerSet Nat E}
    {nested : List (TypeckCall E A)} (h : Knows rustc exprs [vars.typeckCall triggers nested]) :
    vars.toStructure.toTyped rustc exprs =
      .ok (⟨vars.specId, vars.id, rustc.vars (vars.typeckCall triggers nested)⟩,
        [vars.identifier]) := by
  have hargs : closureArgs rustc (rustc.localDefId (vars.typeckCall triggers nested))
      vars.vars.length = _ := closureArgs_eq (vars.typeckCall triggers nested)
  refine (bind_eq_ok_iff _ _ _).mpr ⟨_, lookupExpr_eq h.head, ?_⟩
  exact (bind_eq_ok_iff _ _ _).mpr ⟨_, hargs, rfl⟩

theorem SpecEntailmentVars.toTyped_eq {argBinders : SpecEntailmentVars Nat A}
    {nested nested' : List (TypeckCall E A)}
    (h : Knows rustc exprs [argBinders.preCall nested, argBinders.postCall nested']) :
    ∃ result, (rustc.vars (argBinders.postCall nested')).getLast? = some result ∧
      argBinders.toStructure.toTyped rustc exprs =
        .ok (⟨argBinders.specId, argBinders.preId, argBinders.postId,
            rustc.vars (argBinders.preCall nested), result⟩,
          [argBinders.preIdentifier, argBinders.postIdentifier]) := by
  have hpre : closureArgs rustc (rustc.localDefId (argBinders.preCall nested))
      argBinders.args.length = _ := closureArgs_eq (argBinders.preCall nested)
  have hpost : closureArgs rustc (rustc.localDefId (argBinders.postCall nested'))
      (argBinders.args ++ [argBinders.result]).length = _ :=
    closureArgs_eq (argBinders.postCall nested')
  rw [List.length_append] at hpost
  have hlength := rustc.length_argsIter (argBinders.postCall nested')
  have hne : rustc.vars (argBinders.postCall nested') ≠ [] := by
    rw [← List.length_pos_iff, Rustc.vars, List.length_drop, hlength]
    simp [postCall, TypeckCall.params]
  refine ⟨_, List.getLast?_eq_some_getLast hne, ?_⟩
  refine (bind_eq_ok_iff _ _ _).mpr ⟨_, lookupExpr_eq h.head, ?_⟩
  refine (bind_eq_ok_iff _ _ _).mpr ⟨_, lookupExpr_eq h.tail.head, ?_⟩
  refine (bind_eq_ok_iff _ _ _).mpr ⟨_, hpre, ?_⟩
  refine (bind_eq_ok_iff _ _ _).mpr ⟨_, hpost, ?_⟩
  rw [List.getLast?_eq_some_getLast hne]
  rfl

theorem keyIdentifiers_quantifier (vars : QuantifierVars Nat A)
    (keys keys' : List (SpecificationId × Nat)) :
    keyIdentifiers ((vars.specId, vars.id) :: (keys ++ keys')) =
      [vars.identifier] ++ (keyIdentifiers keys ++ keyIdentifiers keys') := by
  rw [← keyIdentifiers_append]
  rfl

namespace Assertion

mutual

/-- What is serialised is found again, with the identifiers in the order of the ids. -/
theorem exists_toTyped (assertion : Assertion Nat E A) {calls : List (TypeckCall E A)}
    (hcalls : assertion.encodeTypeCheck = .ok calls) (h : Knows rustc exprs calls) :
    ∃ json typed, assertion.toStructure = .ok json ∧
      json.toTyped rustc exprs = .ok (typed, keyIdentifiers assertion.keys) ∧
        IsTyped rustc assertion typed := by
  match assertion with
  | .expr leaf =>
    cases hcalls
    refine ⟨_, _, rfl, ?_, .expr leaf⟩
    rw [Json.Assertion.toTyped, Json.Expression.toTyped, Expression.toStructure,
      lookupExpr_eq h.head]
    rfl
  | .and assertions =>
    obtain ⟨json, typed, hjson, htyped, his⟩ := exists_toTypedEach assertions hcalls h
    refine ⟨.and json, .and typed, ?_, ?_, .and his⟩
    · rw [toStructure, hjson]
      rfl
    · rw [Json.Assertion.toTyped, htyped]
      rfl
  | .implies lhs rhs =>
    obtain ⟨first, hfirst, hcalls⟩ := exists_of_bind_eq_ok hcalls
    obtain ⟨second, hsecond, hcalls⟩ := exists_of_bind_eq_ok hcalls
    cases hcalls
    obtain ⟨json, typed, hjson, htyped, his⟩ := exists_toTyped lhs hfirst h.append.1
    obtain ⟨json', typed', hjson', htyped', his'⟩ := exists_toTyped rhs hsecond h.append.2
    refine ⟨.implies json json', .implies typed typed', ?_, ?_, .implies his his'⟩
    · rw [toStructure, hjson, hjson']
      rfl
    · rw [Json.Assertion.toTyped, htyped, htyped', keys, keyIdentifiers_append]
      rfl
  | .forAll vars triggers body =>
    obtain ⟨nested, hnested, hcalls⟩ := exists_of_bind_eq_ok hcalls
    cases hcalls
    have hbody : Knows rustc exprs (nested ++ triggers.encodeTypeCheck) := h.body
    obtain ⟨json, typed, hjson, htyped, his⟩ := exists_toTyped body hnested hbody.append.1
    refine ⟨.forAll vars.toStructure json triggers.toStructure, _, ?_, ?_, .forAll his hnested⟩
    · rw [toStructure, hjson]
      rfl
    · rw [Json.Assertion.toTyped, QuantifierVars.toTyped_eq h,
        toTypedTriggerSet_eq triggers hbody.append.2, htyped, keys, keyIdentifiers_quantifier]
      rfl
  | .exist vars triggers body =>
    obtain ⟨nested, hnested, hcalls⟩ := exists_of_bind_eq_ok hcalls
    cases hcalls
    have hbody : Knows rustc exprs (nested ++ triggers.encodeTypeCheck) := h.body
    obtain ⟨json, typed, hjson, htyped, his⟩ := exists_toTyped body hnested hbody.append.1
    refine ⟨.exist vars.toStructure json triggers.toStructure, _, ?_, ?_, .exist his hnested⟩
    · rw [toStructure, hjson]
      rfl
    · rw [Json.Assertion.toTyped, QuantifierVars.toTyped_eq h,
        toTypedTriggerSet_eq triggers hbody.append.2, htyped, keys, keyIdentifiers_quantifier]
      rfl
  | .specEntailment closure argBinders pres posts =>
    obtain ⟨nested, hnested, hcalls⟩ := exists_of_bind_eq_ok hcalls
    obtain ⟨nested', hnested', hcalls⟩ := exists_of_bind_eq_ok hcalls
    cases hcalls
    obtain ⟨json, typed, hjson, htyped, his⟩ := exists_toTypedEach pres hnested h.tail.body
    obtain ⟨json', typed', hjson', htyped', his'⟩ :=
      exists_toTypedEach posts hnested' h.tail.tail.body
    obtain ⟨result, hresult, hargBinders⟩ := SpecEntailmentVars.toTyped_eq h.tail
    refine ⟨.specEntailment closure.toStructure argBinders.toStructure json json', _, ?_, ?_,
      .specEntailment his his' hnested hnested' rfl hresult⟩
    · rw [toStructure, hjson, hjson']
      rfl
    · rw [Json.Assertion.toTyped, Json.Expression.toTyped, Expression.toStructure,
        lookupExpr_eq h.head, hargBinders, htyped, htyped', keys]
      simp [keyIdentifiers, Expression.encodeUntyped]
      exact ⟨rfl, rfl⟩
  | .typeCond _ _ => cases hcalls

theorem exists_toTypedEach (assertions : List (Assertion Nat E A))
    {calls : List (TypeckCall E A)} (hcalls : encodeTypeCheckEach assertions = .ok calls)
    (h : Knows rustc exprs calls) :
    ∃ json typed, toStructureEach assertions = .ok json ∧
      Json.Assertion.toTypedEach rustc exprs json =
        .ok (typed, keyIdentifiers (keysEach assertions)) ∧
        List.Forall₂ (IsTyped rustc) assertions typed := by
  match assertions with
  | [] => exact ⟨[], [], rfl, rfl, .nil⟩
  | assertion :: rest =>
    obtain ⟨first, hfirst, hcalls⟩ := exists_of_bind_eq_ok hcalls
    obtain ⟨others, hothers, hcalls⟩ := exists_of_bind_eq_ok hcalls
    cases hcalls
    obtain ⟨json, typed, hjson, htyped, his⟩ := exists_toTyped assertion hfirst h.append.1
    obtain ⟨json', typed', hjson', htyped', his'⟩ := exists_toTypedEach rest hothers h.append.2
    refine ⟨json :: json', typed :: typed', ?_, ?_, .cons his his'⟩
    · rw [toStructureEach, hjson, hjson']
      rfl
    · rw [Json.Assertion.toTypedEach, htyped, htyped', keysEach, keyIdentifiers_append]
      rfl

end

end Assertion

end Visited

section Agreement

variable {E T D L : Type}

/-- The assertion is written out with distinct identifiers, and from what is serialised of
it the same identifiers are looked up and an assertion of the same shape over the closures is
built, whatever else the visitor comes across and in whatever order. -/
def Assertion.SerialisationAgrees (rustc : Rustc E (Arg T) D L) (serde : Serde)
    (assertion : UntypedAssertion E T) : Prop :=
  ∃ calls json, assertion.encodeTypeCheck = .ok calls ∧
    toJsonString serde assertion = .ok json ∧ (writtenIdentifiers calls).Nodup ∧
      ∀ visited others : List (TypeckCall E (Arg T)),
        visited.Perm (TypeckCall.closuresAll calls ++ others) →
        (∀ call ∈ others, call.identifier ∉ writtenIdentifiers calls) →
          ∃ structured typed keys, fromJsonString serde json = .ok structured ∧
            structured.toTyped rustc (typedExpressions rustc visited) = .ok (typed, keys) ∧
              keys.Perm (writtenIdentifiers calls) ∧ IsTyped rustc assertion typed

/-- What is parsed is serialised and written out in agreement. -/
theorem Assertion.serialisationAgrees_of_parse {syn : Syn E T} (rustc : Rustc E (Arg T) D L)
    (serde : Serde) {tokens : TokenStream} {specId : SpecificationId}
    {gen gen' : ExpressionIdGenerator} {assertion : UntypedAssertion E T}
    (hparse : Assertion.parse syn tokens specId gen = .ok (assertion, gen'))
    (hserde : ∀ structured, assertion.toStructure = .ok structured →
      serde.read (serde.write structured) = some structured) :
    assertion.SerialisationAgrees rustc serde := by
  obtain ⟨parsed, _, hassign⟩ := exists_of_bind_eq_ok hparse
  obtain ⟨calls, hcalls⟩ := Assertion.exists_encodeTypeCheck parsed hassign
  have hperm := assertion.writtenIdentifiers_perm hcalls
  have hnodup : (writtenIdentifiers calls).Nodup :=
    hperm.nodup_iff.mpr (Assertion.numbered_assignId parsed hassign).nodup_identifiers
  have hknows : ∀ visited others : List (TypeckCall E (Arg T)),
      visited.Perm (TypeckCall.closuresAll calls ++ others) →
      (∀ call ∈ others, call.identifier ∉ writtenIdentifiers calls) →
        Knows rustc (typedExpressions rustc visited) calls := by
    intro visited others hvisited hothers call hmem
    refine typedExpressions_eq (hvisited.mem_iff.mpr (List.mem_append_left _ hmem)) ?_
    intro other hother heq
    rcases List.mem_append.mp (hvisited.mem_iff.mp hother) with hother | hother
    · exact List.inj_on_of_nodup_map hnodup hother hmem heq
    · exact absurd (heq ▸ List.mem_map_of_mem hmem) (hothers other hother)
  obtain ⟨structured, _, hstructured, _⟩ := assertion.exists_toTyped hcalls
    (hknows (TypeckCall.closuresAll calls) [] (by rw [List.append_nil]) nofun)
  refine ⟨calls, serde.write structured, hcalls, ?_, hnodup, ?_⟩
  · rw [toJsonString, hstructured]
    rfl
  · intro visited others hvisited hothers
    obtain ⟨structured', typed, hstructured', htyped, his⟩ :=
      assertion.exists_toTyped hcalls (hknows visited others hvisited hothers)
    rw [hstructured] at hstructured'
    cases hstructured'
    refine ⟨structured, typed, _, ?_, htyped, hperm.symm, his⟩
    rw [fromJsonString, hserde structured hstructured]
    rfl

end Agreement

namespace Witness

/-- Definitions that are the closures themselves. -/
def closureRustc : Rustc TokenStream (Arg String) (TypeckCall TokenStream (Arg String)) Nat where
  localDefId := id
  argsIter call := List.range (call.params.length + 1)
  length_argsIter _ := List.length_range

/-- `forall(|x: i32| a)` with its ids. -/
def quantified : UntypedAssertion TokenStream String :=
  .forAll ⟨.dummy, 101, [⟨"x", "i32"⟩]⟩ [] (.expr ⟨.dummy, 102, [.ident "a"]⟩)

def quantifiedJson : Json.Assertion := .forAll ⟨.dummy, 101, 1⟩ (.expr ⟨.dummy, 102⟩) []

/-- A writer and a reader of one assertion. -/
def quantifiedSerde : Serde where
  write _ :=
    "\x7b\"kind\":\x7b\"ForAll\":[\x7b\"spec_id\":\"00000000-0000-0000-0000-000000000000\"," ++
    "\"expr_id\":101,\"count\":1\x7d,\x7b\"kind\":\x7b\"Expr\":\x7b\"spec_id\":" ++
    "\"00000000-0000-0000-0000-000000000000\",\"expr_id\":102\x7d\x7d\x7d,[]]\x7d\x7d"
  read _ := some quantifiedJson

theorem quantified_serialisationAgrees :
    quantified.SerialisationAgrees closureRustc quantifiedSerde := by
  have hparse : Assertion.parse tokenSyn [.ident "forall", .group .parenthesis
      [.punct '|', .ident "x", .punct ':', .ident "i32", .punct '|', .ident "a"]] .dummy .new =
        .ok (quantified, ⟨102⟩) := rfl
  refine Assertion.serialisationAgrees_of_parse closureRustc quantifiedSerde hparse ?_
  intro structured hstructured
  cases hstructured
  rfl

end Witness

end Prusti.Specs

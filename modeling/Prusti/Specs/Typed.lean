/-
From the serialised form of a specification to the one over the closures of the compiler.
-/
import Prusti.Specs.Untyped

namespace Prusti.Specs

open Prusti.Lib Preparser

namespace Json

structure Expression where
  /-- Identifier of the specification to which this expression belongs. -/
  specId : SpecificationId
  /-- Identifier of the expression within the specification. -/
  exprId : Nat
deriving Repr, DecidableEq

structure QuantifierVars where
  specId : SpecificationId
  exprId : Nat
  count : Nat
deriving Repr, DecidableEq

structure SpecEntailmentVars where
  specId : SpecificationId
  preExprId : Nat
  postExprId : Nat
  argCount : Nat
deriving Repr, DecidableEq

abbrev TriggerSet := List (List Expression)

inductive Assertion where
  | expr (leaf : Expression)
  | and (assertions : List Assertion)
  | implies (lhs rhs : Assertion)
  | forAll (vars : QuantifierVars) (body : Assertion) (triggers : TriggerSet)
  | exist (vars : QuantifierVars) (body : Assertion) (triggers : TriggerSet)
  | specEntailment (closure : Expression) (argBinders : SpecEntailmentVars)
      (pres posts : List Assertion)
deriving Repr

end Json

section ToStructure

variable {E A : Type}

def Expression.toStructure (leaf : Expression Nat E) : Json.Expression := ⟨leaf.specId, leaf.id⟩

def QuantifierVars.toStructure (vars : QuantifierVars Nat A) : Json.QuantifierVars :=
  ⟨vars.specId, vars.id, vars.vars.length⟩

def SpecEntailmentVars.toStructure (argBinders : SpecEntailmentVars Nat A) :
    Json.SpecEntailmentVars :=
  ⟨argBinders.specId, argBinders.preId, argBinders.postId, argBinders.args.length⟩

def TriggerSet.toStructure (triggers : TriggerSet Nat E) : Json.TriggerSet :=
  triggers.map fun trigger => trigger.map Expression.toStructure

namespace Assertion

mutual

def toStructure : Assertion Nat E A → Outcome Json.Assertion
  | .expr leaf => .ok (.expr leaf.toStructure)
  | .and assertions => do
    let assertions ← toStructureEach assertions
    return .and assertions
  | .implies lhs rhs => do
    let lhs ← toStructure lhs
    let rhs ← toStructure rhs
    return .implies lhs rhs
  | .forAll vars triggers body => do
    let body ← toStructure body
    return .forAll vars.toStructure body triggers.toStructure
  | .exist vars triggers body => do
    let body ← toStructure body
    return .exist vars.toStructure body triggers.toStructure
  | .specEntailment closure argBinders pres posts => do
    let pres ← toStructureEach pres
    let posts ← toStructureEach posts
    return .specEntailment closure.toStructure argBinders.toStructure pres posts
  | .typeCond _ _ => .error .panic

def toStructureEach : List (Assertion Nat E A) → Outcome (List Json.Assertion)
  | [] => .ok []
  | assertion :: rest => do
    let assertion ← toStructure assertion
    let rest ← toStructureEach rest
    return assertion :: rest

end

end Assertion

end ToStructure

/-- What is used of `serde_json`. -/
structure Serde where
  write : Json.Assertion → String
  read : String → Option Json.Assertion

def toJsonString {E A : Type} (serde : Serde) (assertion : Assertion Nat E A) : Outcome String := do
  let structured ← assertion.toStructure
  return serde.write structured

def fromJsonString (serde : Serde) (json : String) : Outcome Json.Assertion :=
  Stop.orPanic (serde.read json)

/-- What is used of the compiler: the definition it makes of a closure, and the arguments
of the body of a definition.  The first argument of a closure is the closure itself. -/
structure Rustc (E A D L : Type) where
  localDefId : TypeckCall E A → D
  argsIter : D → List L
  length_argsIter : ∀ call, (argsIter (localDefId call)).length = call.params.length + 1

section ToTyped

variable {E A D L : Type} (rustc : Rustc E A D L)

/-- The map of the visitor, which visits the closures one after the other. -/
def typedExpressions (visited : List (TypeckCall E A)) : String → Option D :=
  visited.foldl (fun map call =>
    Function.update map call.identifier (some (rustc.localDefId call))) fun _ => none

variable (exprs : String → Option D)

/-- Look up the definition of a closure.  What is looked up is returned too. -/
def lookupExpr (specId : SpecificationId) (id : Nat) : Outcome (D × List String) := do
  let localId ← Stop.orPanic (exprs (identifier specId id))
  return (localId, [identifier specId id])

def Json.Expression.toTyped (leaf : Json.Expression) :
    Outcome (Specs.Expression Nat D × List String) := do
  let (localId, keys) ← lookupExpr exprs leaf.specId leaf.exprId
  return (⟨leaf.specId, leaf.exprId, localId⟩, keys)

/-- The arguments of a closure without the closure itself, of which there must be as many
as expected. -/
def closureArgs (localId : D) (count : Nat) : Outcome (List L) := do
  let args := rustc.argsIter localId
  -- the number of arguments less one, in unsigned numbers
  Stop.assert (0 < args.length && args.length - 1 == count)
  Stop.assert ((args.drop 1).length == count)
  return args.drop 1

def Json.QuantifierVars.toTyped (vars : Json.QuantifierVars) :
    Outcome (Specs.QuantifierVars Nat L × List String) := do
  let (localId, keys) ← lookupExpr exprs vars.specId vars.exprId
  let args ← closureArgs rustc localId vars.count
  return (⟨vars.specId, vars.exprId, args⟩, keys)

def Json.SpecEntailmentVars.toTyped (argBinders : Json.SpecEntailmentVars) :
    Outcome (Specs.SpecEntailmentVars Nat L × List String) := do
  let (localPreId, preKeys) ← lookupExpr exprs argBinders.specId argBinders.preExprId
  let (localPostId, postKeys) ← lookupExpr exprs argBinders.specId argBinders.postExprId
  let preArgs ← closureArgs rustc localPreId argBinders.argCount
  let postArgs ← closureArgs rustc localPostId (argBinders.argCount + 1)
  let result ← Stop.orPanic postArgs.getLast?
  return (⟨argBinders.specId, argBinders.preExprId, argBinders.postExprId, preArgs, result⟩,
    preKeys ++ postKeys)

def toTypedTrigger : List Json.Expression → Outcome (Trigger Nat D × List String)
  | [] => .ok ([], [])
  | leaf :: rest => do
    let (leaf, keys) ← leaf.toTyped exprs
    let (rest, keys') ← toTypedTrigger rest
    return (leaf :: rest, keys ++ keys')

def toTypedTriggerSet : Json.TriggerSet → Outcome (TriggerSet Nat D × List String)
  | [] => .ok ([], [])
  | trigger :: rest => do
    let (trigger, keys) ← toTypedTrigger exprs trigger
    let (rest, keys') ← toTypedTriggerSet rest
    return (trigger :: rest, keys ++ keys')

namespace Json.Assertion

mutual

def toTyped : Json.Assertion → Outcome (Specs.Assertion Nat D L × List String)
  | .expr leaf => do
    let (leaf, keys) ← leaf.toTyped exprs
    return (.expr leaf, keys)
  | .and assertions => do
    let (assertions, keys) ← toTypedEach assertions
    return (.and assertions, keys)
  | .implies lhs rhs => do
    let (lhs, keys) ← toTyped lhs
    let (rhs, keys') ← toTyped rhs
    return (.implies lhs rhs, keys ++ keys')
  | .forAll vars body triggers => do
    let (vars, keys) ← vars.toTyped rustc exprs
    let (triggers, keys') ← toTypedTriggerSet exprs triggers
    let (body, keys'') ← toTyped body
    return (.forAll vars triggers body, keys ++ (keys' ++ keys''))
  | .exist vars body triggers => do
    let (vars, keys) ← vars.toTyped rustc exprs
    let (triggers, keys') ← toTypedTriggerSet exprs triggers
    let (body, keys'') ← toTyped body
    return (.exist vars triggers body, keys ++ (keys' ++ keys''))
  | .specEntailment closure argBinders pres posts => do
    let (closure, keys) ← closure.toTyped exprs
    let (argBinders, keys') ← argBinders.toTyped rustc exprs
    let (pres, keys'') ← toTypedEach pres
    let (posts, keys''') ← toTypedEach posts
    return (.specEntailment closure argBinders pres posts, keys ++ (keys' ++ (keys'' ++ keys''')))

def toTypedEach : List Json.Assertion → Outcome (List (Specs.Assertion Nat D L) × List String)
  | [] => .ok ([], [])
  | assertion :: rest => do
    let (assertion, keys) ← toTyped assertion
    let (rest, keys') ← toTypedEach rest
    return (assertion :: rest, keys ++ keys')

end

end Json.Assertion

end ToTyped

/-- The variables of a closure, as the compiler knows them. -/
def Rustc.vars {E A D L : Type} (rustc : Rustc E A D L) (call : TypeckCall E A) : List L :=
  (rustc.argsIter (rustc.localDefId call)).drop 1

/-- Triggers over the closures that were written out for them. -/
def TriggerSet.typed {E A D L : Type} (rustc : Rustc E A D L) (triggers : TriggerSet Nat E) :
    TriggerSet Nat D :=
  triggers.map fun trigger => trigger.map fun leaf =>
    ⟨leaf.specId, leaf.id, rustc.localDefId leaf.encodeUntyped⟩

/-- The assertion over definitions has the shape of the assertion over expressions, and in
the place of each expression and each list of variables stands what the compiler made of
the closure that was written out for it. -/
inductive IsTyped {E A D L : Type} (rustc : Rustc E A D L) :
    Assertion Nat E A → Assertion Nat D L → Prop
  | expr (leaf : Expression Nat E) :
      IsTyped rustc (.expr leaf)
        (.expr ⟨leaf.specId, leaf.id, rustc.localDefId (.check leaf.identifier true leaf.expr)⟩)
  | and {assertions typed} (h : List.Forall₂ (IsTyped rustc) assertions typed) :
      IsTyped rustc (.and assertions) (.and typed)
  | implies {lhs lhs' rhs rhs'} (h : IsTyped rustc lhs lhs') (h' : IsTyped rustc rhs rhs') :
      IsTyped rustc (.implies lhs rhs) (.implies lhs' rhs')
  | forAll {vars triggers body body' nested} (h : IsTyped rustc body body')
      (hnested : body.encodeTypeCheck = .ok nested) :
      IsTyped rustc (.forAll vars triggers body)
        (.forAll ⟨vars.specId, vars.id, rustc.vars (vars.typeckCall triggers nested)⟩
          (triggers.typed rustc) body')
  | exist {vars triggers body body' nested} (h : IsTyped rustc body body')
      (hnested : body.encodeTypeCheck = .ok nested) :
      IsTyped rustc (.exist vars triggers body)
        (.exist ⟨vars.specId, vars.id, rustc.vars (vars.typeckCall triggers nested)⟩
          (triggers.typed rustc) body')
  | specEntailment {closure argBinders pres pres' posts posts' nested nested' args result}
      (h : List.Forall₂ (IsTyped rustc) pres pres') (h' : List.Forall₂ (IsTyped rustc) posts posts')
      (hpres : Assertion.encodeTypeCheckEach pres = .ok nested)
      (hposts : Assertion.encodeTypeCheckEach posts = .ok nested')
      (hargs : rustc.vars (argBinders.preCall nested) = args)
      (hresult : (rustc.vars (argBinders.postCall nested')).getLast? = some result) :
      IsTyped rustc (.specEntailment closure argBinders pres posts)
        (.specEntailment
          ⟨closure.specId, closure.id, rustc.localDefId closure.encodeUntyped⟩
          ⟨argBinders.specId, argBinders.preId, argBinders.postId, args, result⟩
          pres' posts')

end Prusti.Specs

/-
Untyped specifications: their identifiers, and the code that lets the compiler check the
types of their expressions.
-/
import Prusti.Specs.ParserFuel

namespace Prusti.Specs

open Preparser

/-- A generator of unique ids of expressions. -/
structure ExpressionIdGenerator where
  lastId : Nat
deriving Repr, DecidableEq

namespace ExpressionIdGenerator

def new : ExpressionIdGenerator := ⟨100⟩

def generate (gen : ExpressionIdGenerator) : Nat × ExpressionIdGenerator :=
  (gen.lastId + 1, ⟨gen.lastId + 1⟩)

end ExpressionIdGenerator

/-- The 32 hexadecimal digits of the identifier. -/
def SpecificationId.display (specId : SpecificationId) : String :=
  String.ofList ((List.range 32).map fun place =>
    Nat.digitChar (specId.uuid.toNat / 16 ^ (31 - place) % 16))

/-- The attribute that connects an expression to the closure it is checked in. -/
def identifier (specId : SpecificationId) (id : Nat) : String :=
  specId.display ++ "_" ++ toString id

/-- An assertion whose expressions have ids. -/
abbrev UntypedAssertion (E T : Type) := Assertion Nat E (Arg T)

section AssignId

variable {E T : Type}

def Expression.assignId (specId : SpecificationId) (expr : ExpressionWithoutId E)
    (gen : ExpressionIdGenerator) : Expression Nat E × ExpressionIdGenerator :=
  let (id, gen) := gen.generate
  (⟨specId, id, expr.expr⟩, gen)

def QuantifierVars.assignId (specId : SpecificationId) (vars : QuantifierVars Unit (Arg T))
    (gen : ExpressionIdGenerator) : QuantifierVars Nat (Arg T) × ExpressionIdGenerator :=
  let (id, gen) := gen.generate
  (⟨specId, id, vars.vars⟩, gen)

def SpecEntailmentVars.assignId (specId : SpecificationId)
    (argBinders : SpecEntailmentVars Unit (Arg T)) (gen : ExpressionIdGenerator) :
    SpecEntailmentVars Nat (Arg T) × ExpressionIdGenerator :=
  let (preId, gen) := gen.generate
  let (postId, gen) := gen.generate
  (⟨specId, preId, postId, argBinders.args, argBinders.result⟩, gen)

def Trigger.assignId (specId : SpecificationId) :
    Trigger Unit E → ExpressionIdGenerator → Trigger Nat E × ExpressionIdGenerator
  | [], gen => ([], gen)
  | expr :: rest, gen =>
    let (expr, gen) := Expression.assignId specId expr gen
    let (rest, gen) := Trigger.assignId specId rest gen
    (expr :: rest, gen)

def TriggerSet.assignId (specId : SpecificationId) :
    TriggerSet Unit E → ExpressionIdGenerator → TriggerSet Nat E × ExpressionIdGenerator
  | [], gen => ([], gen)
  | trigger :: rest, gen =>
    let (trigger, gen) := Trigger.assignId specId trigger gen
    let (rest, gen) := TriggerSet.assignId specId rest gen
    (trigger :: rest, gen)

namespace Assertion

mutual

/-- A type condition is not implemented. -/
def assignId (specId : SpecificationId) : AssertionWithoutId E T → ExpressionIdGenerator →
    Outcome (UntypedAssertion E T × ExpressionIdGenerator)
  | .expr leaf, gen =>
    let (leaf, gen) := Expression.assignId specId leaf gen
    .ok (.expr leaf, gen)
  | .and assertions, gen => do
    let (assertions, gen) ← assignIdEach specId assertions gen
    return (.and assertions, gen)
  | .implies lhs rhs, gen => do
    let (lhs, gen) ← assignId specId lhs gen
    let (rhs, gen) ← assignId specId rhs gen
    return (.implies lhs rhs, gen)
  | .forAll vars triggers body, gen => do
    let (vars, gen) := QuantifierVars.assignId specId vars gen
    let (triggers, gen) := TriggerSet.assignId specId triggers gen
    let (body, gen) ← assignId specId body gen
    return (.forAll vars triggers body, gen)
  | .exist vars triggers body, gen => do
    let (vars, gen) := QuantifierVars.assignId specId vars gen
    let (triggers, gen) := TriggerSet.assignId specId triggers gen
    let (body, gen) ← assignId specId body gen
    return (.exist vars triggers body, gen)
  | .specEntailment closure argBinders pres posts, gen => do
    let (closure, gen) := Expression.assignId specId closure gen
    let (argBinders, gen) := SpecEntailmentVars.assignId specId argBinders gen
    let (pres, gen) ← assignIdEach specId pres gen
    let (posts, gen) ← assignIdEach specId posts gen
    return (.specEntailment closure argBinders pres posts, gen)
  | .typeCond _ _, _ => .error .panic

def assignIdEach (specId : SpecificationId) : List (AssertionWithoutId E T) →
    ExpressionIdGenerator → Outcome (List (UntypedAssertion E T) × ExpressionIdGenerator)
  | [], gen => .ok ([], gen)
  | assertion :: rest, gen => do
    let (assertion, gen) ← assignId specId assertion gen
    let (rest, gen) ← assignIdEach specId rest gen
    return (assertion :: rest, gen)

end

/-- Parse an assertion and give ids to its expressions. -/
def parse (syn : Syn E T) (tokens : TokenStream) (specId : SpecificationId)
    (gen : ExpressionIdGenerator) : Outcome (UntypedAssertion E T × ExpressionIdGenerator) := do
  let assertion ← extractAssertion syn (fuelFor tokens) tokens
  assertion.assignId specId gen

end Assertion

end AssignId

/-- A statement that is only there for its types: a closure around an expression, or one
around further such statements. -/
inductive TypeckCall (E A : Type) where
  | check (identifier : String) (returnsBool : Bool) (expr : E)
  | nested (identifier : String) (params : List A) (body : List (TypeckCall E A))

namespace TypeckCall

variable {E A : Type}

def identifier : TypeckCall E A → String
  | .check identifier _ _ => identifier
  | .nested identifier _ _ => identifier

/-- The parameters of the closure. -/
def params : TypeckCall E A → List A
  | .check _ _ _ => []
  | .nested _ params _ => params

mutual

/-- All closures, those inside others included. -/
def closures : TypeckCall E A → List (TypeckCall E A)
  | .check identifier returnsBool expr => [.check identifier returnsBool expr]
  | .nested identifier params body => .nested identifier params body :: closuresAll body

def closuresAll : List (TypeckCall E A) → List (TypeckCall E A)
  | [] => []
  | call :: rest => closures call ++ closuresAll rest

end

end TypeckCall

section EncodeTypeCheck

variable {E A : Type}

def Expression.identifier (leaf : Expression Nat E) : String := Specs.identifier leaf.specId leaf.id

/-- The statement for a Boolean expression. -/
def Expression.encodeTypeCheck (leaf : Expression Nat E) : List (TypeckCall E A) :=
  [.check leaf.identifier true leaf.expr]

/-- The statement for an expression of any type. -/
def Expression.encodeUntyped (leaf : Expression Nat E) : TypeckCall E A :=
  .check leaf.identifier false leaf.expr

def TriggerSet.encodeTypeCheck (triggers : TriggerSet Nat E) : List (TypeckCall E A) :=
  triggers.flatMap fun trigger => trigger.map Expression.encodeUntyped

def QuantifierVars.identifier (vars : QuantifierVars Nat A) : String :=
  Specs.identifier vars.specId vars.id

def SpecEntailmentVars.preIdentifier (argBinders : SpecEntailmentVars Nat A) : String :=
  Specs.identifier argBinders.specId argBinders.preId

def SpecEntailmentVars.postIdentifier (argBinders : SpecEntailmentVars Nat A) : String :=
  Specs.identifier argBinders.specId argBinders.postId

/-- The closure of a quantifier, around the statements of its body and its triggers. -/
def QuantifierVars.typeckCall (vars : QuantifierVars Nat A) (triggers : TriggerSet Nat E)
    (body : List (TypeckCall E A)) : TypeckCall E A :=
  .nested vars.identifier vars.vars (body ++ triggers.encodeTypeCheck)

/-- The closure around the preconditions of a specification entailment. -/
def SpecEntailmentVars.preCall (argBinders : SpecEntailmentVars Nat A)
    (pres : List (TypeckCall E A)) : TypeckCall E A :=
  .nested argBinders.preIdentifier argBinders.args pres

/-- The closure around the postconditions, which may mention the result. -/
def SpecEntailmentVars.postCall (argBinders : SpecEntailmentVars Nat A)
    (posts : List (TypeckCall E A)) : TypeckCall E A :=
  .nested argBinders.postIdentifier (argBinders.args ++ [argBinders.result]) posts

namespace Assertion

mutual

/-- Encode the statements for type-checking the assertion. -/
def encodeTypeCheck : Assertion Nat E A → Outcome (List (TypeckCall E A))
  | .expr leaf => .ok leaf.encodeTypeCheck
  | .and assertions => encodeTypeCheckEach assertions
  | .implies lhs rhs => do
    let first ← encodeTypeCheck lhs
    let second ← encodeTypeCheck rhs
    return first ++ second
  | .forAll vars triggers body => do
    let nested ← encodeTypeCheck body
    return [vars.typeckCall triggers nested]
  | .exist vars triggers body => do
    let nested ← encodeTypeCheck body
    return [vars.typeckCall triggers nested]
  | .specEntailment closure argBinders pres posts => do
    let preAssertion ← encodeTypeCheckEach pres
    let postAssertion ← encodeTypeCheckEach posts
    return [closure.encodeUntyped, argBinders.preCall preAssertion,
      argBinders.postCall postAssertion]
  | .typeCond _ _ => .error .panic

def encodeTypeCheckEach : List (Assertion Nat E A) → Outcome (List (TypeckCall E A))
  | [] => .ok []
  | assertion :: rest => do
    let first ← encodeTypeCheck assertion
    let others ← encodeTypeCheckEach rest
    return first ++ others

end

end Assertion

end EncodeTypeCheck

end Prusti.Specs

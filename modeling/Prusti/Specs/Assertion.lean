/-
The data structures of specifications: expressions, assertions and pledges, over the
identifiers of expressions, the expressions and the arguments.
-/
import Mathlib.Algebra.Group.Nat.Defs
import Mathlib.Tactic.Common

namespace Prusti.Specs

universe u v w

/-- A unique ID of the specification element such as entire precondition or
postcondition. -/
structure SpecificationId where
  uuid : BitVec 128
deriving Repr, DecidableEq

def SpecificationId.dummy : SpecificationId := ⟨0⟩

/-- A Rust expression used in the specification. -/
structure Expression (EID : Type u) (ET : Type v) where
  /-- Identifier of the specification to which this expression belongs. -/
  specId : SpecificationId
  id : EID
  expr : ET
deriving Repr, DecidableEq

/-- A single trigger for a quantifier, a "conjunction" of terms. -/
abbrev Trigger (EID : Type u) (ET : Type v) := List (Expression EID ET)

abbrev TriggerSet (EID : Type u) (ET : Type v) := List (Trigger EID ET)

/-- Variables used in a quantifier. -/
structure QuantifierVars (EID : Type u) (AT : Type w) where
  specId : SpecificationId
  id : EID
  vars : List AT
deriving Repr, DecidableEq

/-- Variables used in a specification entailment. -/
structure SpecEntailmentVars (EID : Type u) (AT : Type w) where
  specId : SpecificationId
  /-- Unique id of the pre state. -/
  preId : EID
  /-- Unique id of the post state. -/
  postId : EID
  args : List AT
  result : AT
deriving Repr, DecidableEq

/-- An assertion used in the specification. -/
inductive Assertion (EID : Type u) (ET : Type v) (AT : Type w) where
  | expr (expr : Expression EID ET)
  | and (assertions : List (Assertion EID ET AT))
  | implies (lhs rhs : Assertion EID ET AT)
  | typeCond (vars : QuantifierVars EID AT) (body : Assertion EID ET AT)
  | forAll (vars : QuantifierVars EID AT) (triggers : TriggerSet EID ET)
      (body : Assertion EID ET AT)
  | exist (vars : QuantifierVars EID AT) (triggers : TriggerSet EID ET) (body : Assertion EID ET AT)
  | specEntailment (closure : Expression EID ET) (argBinders : SpecEntailmentVars EID AT)
      (pres posts : List (Assertion EID ET AT))
deriving Repr

/-- Pledge `after_expiry(ref => rhs)` or `after_expiry_if(ref => lhs, rhs)`. -/
structure Pledge (EID : Type u) (ET : Type v) (AT : Type w) where
  reference : Option (Expression EID ET)
  lhs : Option (Assertion EID ET AT)
  rhs : Assertion EID ET AT
deriving Repr

namespace Assertion

variable {EID : Type u} {ET : Type v} {AT : Type w}

mutual

/-- The conjuncts of an assertion, with those of nested conjunctions in their place. -/
def flatten : Assertion EID ET AT → List (Assertion EID ET AT)
  | .expr e => [.expr e]
  | .and assertions => flattenAll assertions
  | .implies lhs rhs => [.implies (.and lhs.flatten) (.and rhs.flatten)]
  | .typeCond vars body => [.typeCond vars (.and body.flatten)]
  | .forAll vars triggers body => [.forAll vars triggers (.and body.flatten)]
  | .exist vars triggers body => [.exist vars triggers (.and body.flatten)]
  | .specEntailment closure argBinders pres posts =>
    [.specEntailment closure argBinders (flattenEach pres) (flattenEach posts)]

def flattenAll : List (Assertion EID ET AT) → List (Assertion EID ET AT)
  | [] => []
  | assertion :: rest => assertion.flatten ++ flattenAll rest

def flattenEach : List (Assertion EID ET AT) → List (Assertion EID ET AT)
  | [] => []
  | assertion :: rest => .and assertion.flatten :: flattenEach rest

end

theorem flattenAll_singleton (assertion : Assertion EID ET AT) :
    flattenAll [assertion] = assertion.flatten := by
  rw [flattenAll, flattenAll, List.append_nil]

theorem flattenAll_append (front back : List (Assertion EID ET AT)) :
    flattenAll (front ++ back) = flattenAll front ++ flattenAll back := by
  induction front with
  | nil => rfl
  | cons assertion front ih => rw [List.cons_append, flattenAll, ih, flattenAll, List.append_assoc]

/-- The same assertion up to the nesting of conjunctions. -/
def Same (left right : Assertion EID ET AT) : Prop := left.flatten = right.flatten

end Assertion

end Prusti.Specs

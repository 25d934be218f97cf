/-
Assertions with their parentheses, and the tokens they are printed to.
-/
import Prusti.Specs.Preparser

namespace Prusti.Specs

variable {E T : Type}

/-- The operators that separate Rust expressions. -/
def separators : List String := ["&&", "||", "|=", "==>", ","]

/-- A Rust expression with no separator at top level. -/
structure Atom (syn : Syn E T) where
  tokens : TokenStream
  expr : E
  parses : syn.parseExpr tokens = .ok expr
  plain : ∀ operator ∈ separators, containsOperator tokens operator = false

/-- The variables of a quantifier or of a specification entailment, at least one. -/
structure BoundVars (syn : Syn E T) where
  tokens : TokenStream
  vars : List (Arg T)
  parses : syn.parseArgs tokens = .ok vars
  nonempty : tokens ≠ []
  plain : containsOperator tokens "|" = false

/-- An array of tuples of Rust expressions. -/
structure PrintedTriggers (syn : Syn E T) where
  tokens : TokenStream
  triggers : List (List E)
  parses : syn.parseArray tokens = .ok (triggers.map some)

mutual

/-- An operand of a conjunction. -/
inductive Primary (syn : Syn E T) where
  | expr (atom : Atom syn)
  | paren (body : Formula syn)
  | quantifier (exists_ : Bool) (vars : BoundVars syn) (body : Formula syn)
      (triggers : Option (PrintedTriggers syn))
  | entailment (closure : Atom syn) (vars : Option (BoundVars syn)) (clauses : Clauses syn)

/-- The `requires` and `ensures` of a specification entailment. -/
inductive Clauses (syn : Syn E T) where
  | nil
  | cons (ensures : Bool) (body : Formula syn) (rest : Clauses syn)

/-- Operands of `&&`. -/
inductive Conjunction (syn : Syn E T) where
  | single (conjunct : Primary syn)
  | and (conjunct : Primary syn) (rest : Conjunction syn)

/-- Operands of `==>`, which is right associative. -/
inductive Formula (syn : Syn E T) where
  | conj (conjuncts : Conjunction syn)
  | implies (lhs : Conjunction syn) (rhs : Formula syn)

end

variable {syn : Syn E T}

namespace BoundVars

def print (vars : BoundVars syn) : TokenStream :=
  operatorTokens "|" ++ vars.tokens ++ operatorTokens "|"

def printOption : Option (BoundVars syn) → TokenStream
  | none => []
  | some vars => vars.print

def args : Option (BoundVars syn) → List (Arg T)
  | none => []
  | some vars => vars.vars

end BoundVars

def PrintedTriggers.print : Option (PrintedTriggers syn) → TokenStream
  | none => []
  | some triggers => operatorTokens "," ++ .ident "triggers" :: operatorTokens "=" ++
      triggers.tokens

def PrintedTriggers.triggerSet : Option (PrintedTriggers syn) → TriggerSet Unit E
  | none => []
  | some triggers => triggers.triggers.map fun elems => elems.map Preparser.expression

mutual

def Primary.print : Primary syn → TokenStream
  | .expr atom => atom.tokens
  | .paren body => [.group .parenthesis body.print]
  | .quantifier exists_ vars body triggers =>
    [.ident (if exists_ then "exists" else "forall"),
      .group .parenthesis (vars.print ++ body.print ++ PrintedTriggers.print triggers)]
  | .entailment closure vars clauses =>
    closure.tokens ++ (operatorTokens "|=" ++ (BoundVars.printOption vars ++
      [.group .bracket (clauses.print true)]))

def Clauses.print (first : Bool) : Clauses syn → TokenStream
  | .nil => []
  | .cons ensures body rest =>
    (if first then [] else operatorTokens ",") ++
      .ident (if ensures then "ensures" else "requires") ::
        .group .parenthesis body.print :: rest.print false

def Conjunction.print : Conjunction syn → TokenStream
  | .single conjunct => conjunct.print
  | .and conjunct rest => conjunct.print ++ operatorTokens "&&" ++ rest.print

def Formula.print : Formula syn → TokenStream
  | .conj conjuncts => conjuncts.print
  | .implies lhs rhs => lhs.print ++ operatorTokens "==>" ++ rhs.print

end

mutual

def Primary.assertion : Primary syn → AssertionWithoutId E T
  | .expr atom => .expr (Preparser.expression atom.expr)
  | .paren body => body.assertion
  | .quantifier exists_ vars body triggers =>
    Preparser.quantifier exists_ vars.vars (PrintedTriggers.triggerSet triggers) body.assertion
  | .entailment closure vars clauses =>
    Preparser.entailment syn (Preparser.expression closure.expr) (BoundVars.args vars)
      (clauses.assertions false) (clauses.assertions true)

/-- The assertions of the `ensures`, or those of the `requires`. -/
def Clauses.assertions (ensures : Bool) : Clauses syn → List (AssertionWithoutId E T)
  | .nil => []
  | .cons ensures' body rest =>
    if ensures' = ensures then body.assertion :: rest.assertions ensures
    else rest.assertions ensures

def Conjunction.assertions : Conjunction syn → List (AssertionWithoutId E T)
  | .single conjunct => [conjunct.assertion]
  | .and conjunct rest => conjunct.assertion :: rest.assertions

/-- What is printed. -/
def Formula.assertion : Formula syn → AssertionWithoutId E T
  | .conj conjuncts => Preparser.ofConjuncts conjuncts.assertions
  | .implies lhs rhs => .implies (Preparser.ofConjuncts lhs.assertions) rhs.assertion

end

/-- The parser does not take the tokens for a Rust expression: they begin with the keyword
of a quantifier, or are a single group and not in front of a comma. -/
def NotRust (beforeComma : Bool) (tokens : TokenStream) : Prop :=
  Preparser.peekKeyword "forall" tokens = true ∨ Preparser.peekKeyword "exists" tokens = true ∨
    beforeComma = false ∧ ∃ stream, tokens = [.group .parenthesis stream]

/-- The parser takes the atom for a Rust expression, and no group in it contains `==>`. -/
def Atom.Readable (beforeComma : Bool) (atom : Atom syn) : Prop :=
  Preparser.containsOperatorRecursive "==>" atom.tokens = false ∧ ¬ NotRust beforeComma atom.tokens

mutual

/-- The parser reads the assertion as it was meant, in front of a comma or not: no group
that it takes for an assertion mixes `&&` and `||`, every atom is readable where it stands,
and no parenthesised assertion stands in front of a comma. -/
def Primary.Readable (beforeComma : Bool) : Primary syn → Prop
  | .expr atom => atom.Readable beforeComma
  | .paren body => beforeComma = false ∧ Preparser.containsBothAndOr body.print = false ∧
      body.Readable false
  | .quantifier _ _ body triggers => body.Readable triggers.isSome
  | .entailment closure _ clauses => closure.Readable false ∧ clauses.Readable

def Clauses.Readable : Clauses syn → Prop
  | .nil => True
  | .cons _ body rest =>
    (Preparser.containsBothAndOr body.print = false ∧ body.Readable false) ∧ rest.Readable

def Conjunction.Readable (beforeComma : Bool) : Conjunction syn → Prop
  | .single conjunct => conjunct.Readable beforeComma
  | .and conjunct rest => conjunct.Readable false ∧ rest.Readable beforeComma

def Formula.Readable (beforeComma : Bool) : Formula syn → Prop
  | .conj conjuncts => conjuncts.Readable beforeComma
  | .implies lhs rhs => lhs.Readable false ∧ rhs.Readable beforeComma

end

end Prusti.Specs

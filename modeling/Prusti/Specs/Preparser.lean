/-
The preparser: Prusti's own syntax around Rust expressions, which are left to `syn`.
-/
import Prusti.Lib.Outcome
import Prusti.Specs.Assertion
import Prusti.Specs.Tokens

namespace Prusti.Specs

open Prusti.Lib

/-- An argument to `forall` (for example `a: i32`). -/
structure Arg (T : Type) where
  name : String
  typ : T
deriving Repr, DecidableEq

/-- The tokens are not empty, and no infix operator stands at their end. -/
def EndsOperand (tokens : TokenStream) : Prop :=
  ∃ token, tokens.getLast? = some token ∧ ∀ c, c = '&' ∨ c = '|' ∨ c = '=' → token ≠ .punct c

/-- What the preparser uses of `syn`: its expressions, which keep their tokens, and the
parsers it calls. -/
structure Syn (E T : Type) where
  toTokens : E → TokenStream
  parseExpr : TokenStream → Except String E
  /-- Arguments, separated by commas. -/
  parseArgs : TokenStream → Except String (List (Arg T))
  /-- The elements of an array expression, with those of the tuples among them. -/
  parseArray : TokenStream → Except String (List (Option (List E)))
  /-- The type `i32`. -/
  i32 : T
  toTokens_parseExpr : ∀ {tokens expr}, parseExpr tokens = .ok expr → toTokens expr = tokens
  endsOperand_parseExpr : ∀ {tokens expr}, parseExpr tokens = .ok expr → EndsOperand tokens

theorem EndsOperand.ne_nil {tokens : TokenStream} (h : EndsOperand tokens) : tokens ≠ [] := by
  rintro rfl
  obtain ⟨token, htoken, _⟩ := h
  cases htoken

abbrev ExpressionWithoutId (E : Type) := Expression Unit E

abbrev AssertionWithoutId (E T : Type) := Assertion Unit E (Arg T)

abbrev PledgeWithoutId (E T : Type) := Pledge Unit E (Arg T)

namespace Preparser

abbrev Outcome (α : Type) := Except (Stop String) α

/-- Complain about expecting a token. -/
def errorExpected {α : Type} (what : String) : Outcome α := .error (.error ("expected " ++ what))

def errorNoQuantifierArguments {α : Type} : Outcome α :=
  .error (.error "a quantifier must have at least one argument")

def errorExpectedTuple {α : Type} : Outcome α :=
  .error (.error "`triggers` must be an array of tuples containing Rust expressions")

def errorUnexpected {α : Type} : Outcome α := .error (.error "unexpected token")

def errorNoImplies {α : Type} : Outcome α :=
  .error (.error "`==>` cannot be part of Rust expression")

def errorAmbiguousExpression {α : Type} : Outcome α :=
  .error (.error ("found `||` and `&&` in the same subexpression. " ++
    "Hint: add parentheses to clarify the evaluation order."))

/-- Does the input start with this keyword? -/
def peekKeyword (keyword : String) : TokenStream → Bool
  | .ident name :: _ => name == keyword
  | _ => false

/-- Does the input start with a group with the given grouping? -/
def peekGroup (delimiter : Delimiter) : TokenStream → Bool
  | .group delimiter' _ :: _ => delimiter == delimiter'
  | _ => false

/-- Consume the operator if it is next in the stream. -/
def consumeOperator (operator : String) (tokens : TokenStream) : Option TokenStream :=
  if peekOperator operator tokens then some (tokens.drop operator.length) else none

/-- Consume the keyword if it is next in the stream. -/
def consumeKeyword (keyword : String) : TokenStream → Option TokenStream
  | .ident name :: rest => if name == keyword then some rest else none
  | _ => none

/-- Consume the group if it is next in the stream. -/
def consumeGroup (delimiter : Delimiter) : TokenStream → Option (TokenStream × TokenStream)
  | .group delimiter' stream :: rest =>
    if delimiter == delimiter' then some (stream, rest) else none
  | _ => none

/-- Pop tokens into a new stream until the rest of the input meets the condition. -/
def popUntil (stop : TokenStream → Bool) : TokenStream → TokenStream × TokenStream
  | [] => ([], [])
  | token :: rest =>
    if stop (token :: rest) then ([], token :: rest)
    else (token :: (popUntil stop rest).1, (popUntil stop rest).2)

/-- Pop tokens into a new stream until the given operator. -/
def createStreamUntil (delimiter : String) : TokenStream → TokenStream × TokenStream :=
  popUntil (peekOperator delimiter)

mutual

def tokenContainsOperator (operator : String) : TokenTree → Bool
  | .group _ stream => containsOperatorRecursive operator stream
  | _ => false

/-- Does the given operator appear in the stream anywhere? -/
def containsOperatorRecursive (operator : String) : TokenStream → Bool
  | [] => false
  | token :: rest =>
    peekOperator operator (token :: rest) || tokenContainsOperator operator token ||
      containsOperatorRecursive operator rest

end

/-- Which of `&&` and `||` the current subexpression contains so far. -/
structure SeenOperators where
  and : Bool
  or : Bool

def SeenOperators.next (seen : SeenOperators) (tokens : TokenStream) : SeenOperators :=
  if peekOperator "&&" tokens then { seen with and := true }
  else if peekOperator "||" tokens then { seen with or := true }
  else if peekOperator "==>" tokens then ⟨false, false⟩
  else seen

mutual

def tokenContainsBothAndOr : TokenTree → Bool
  | .group .parenthesis stream => containsBothAndOrFrom ⟨false, false⟩ stream
  | _ => false

def containsBothAndOrFrom (seen : SeenOperators) : TokenStream → Bool
  | [] => false
  | token :: rest =>
    ((seen.next (token :: rest)).and && (seen.next (token :: rest)).or) ||
      tokenContainsBothAndOr token ||
      containsBothAndOrFrom (seen.next (token :: rest)) rest

end

/-- Check if there is a subexpression (parenthesized or separated by `==>`) that contains
both `&&` and `||`. -/
def containsBothAndOr (stream : TokenStream) : Bool := containsBothAndOrFrom ⟨false, false⟩ stream

/-- Is there any non-prusti operator following the first thing? -/
def isPartOfRustExpr : TokenStream → Bool
  | [] => false
  | _ :: rest =>
    !(peekOperator "|=" rest || peekOperator "&&" rest || peekOperator "==>" rest || rest.isEmpty)

section

variable {E T : Type} (syn : Syn E T)

/-- An expression without an id. -/
def expression (expr : E) : ExpressionWithoutId E := ⟨.dummy, (), expr⟩

/-- Where a Rust expression ends. -/
def endsRust (terminator : String) (tokens : TokenStream) : Bool :=
  peekOperator "|=" tokens || peekOperator "&&" tokens || peekOperator "==>" tokens ||
    peekOperator terminator tokens

def parseRustUntil (terminator : String) (tokens : TokenStream) :
    Outcome (ExpressionWithoutId E × TokenStream) :=
  let (stream, rest) := popUntil (endsRust terminator) tokens
  if containsOperatorRecursive "==>" stream then errorNoImplies
  else if stream.isEmpty then errorExpected "expression"
  else do
    let expr ← Stop.callback (syn.parseExpr stream)
    return (expression expr, rest)

/-- The variables of a specification entailment, and what follows them. -/
def parseEntailmentVars (tokens : TokenStream) : Outcome (List (Arg T) × TokenStream) :=
  match consumeOperator "|" tokens with
  | none => .ok ([], tokens)
  | some tokens => do
    let args ← Stop.callback (syn.parseArgs (createStreamUntil "|" tokens).1)
    match consumeOperator "|" (createStreamUntil "|" tokens).2 with
    | none => errorExpected "`|`"
    | some tokens => return (args, tokens)

/-- The variables of a quantifier, and what follows them. -/
def parseQuantifierVars (tokens : TokenStream) : Outcome (List (Arg T) × TokenStream) :=
  match consumeOperator "|" tokens with
  | none => errorExpected "`|`"
  | some tokens =>
    if (createStreamUntil "|" tokens).1.isEmpty then errorNoQuantifierArguments
    else do
      let args ← Stop.callback (syn.parseArgs (createStreamUntil "|" tokens).1)
      match consumeOperator "|" (createStreamUntil "|" tokens).2 with
      | none => errorExpected "`|`"
      | some tokens => return (args, tokens)

/-- The elements of the array are tuples. -/
def triggersOfArray : List (Option (List E)) → Outcome (TriggerSet Unit E)
  | [] => .ok []
  | none :: _ => errorExpectedTuple
  | some elems :: items => do
    let triggers ← triggersOfArray items
    return elems.map expression :: triggers

/-- The triggers after the body of a quantifier, if there are any. -/
def parseTriggers (tokens : TokenStream) : Outcome (TriggerSet Unit E) :=
  match consumeOperator "," tokens with
  | none => .ok []
  | some tokens =>
    match consumeKeyword "triggers" tokens with
    | none => errorExpected "`triggers`"
    | some tokens =>
      match consumeOperator "=" tokens with
      | none => errorExpected "`=`"
      | some tokens =>
        match syn.parseArray tokens with
        | .error _ => errorExpectedTuple
        | .ok items => triggersOfArray items

def quantifier (exists_ : Bool) (vars : List (Arg T)) (triggers : TriggerSet Unit E)
    (body : AssertionWithoutId E T) : AssertionWithoutId E T :=
  if exists_ then .exist ⟨.dummy, (), vars⟩ triggers body
  else .forAll ⟨.dummy, (), vars⟩ triggers body

def entailment (lhs : ExpressionWithoutId E) (vars : List (Arg T))
    (pres posts : List (AssertionWithoutId E T)) : AssertionWithoutId E T :=
  .specEntailment lhs ⟨.dummy, (), (), vars, ⟨"result", syn.i32⟩⟩ pres posts

/-- A list of conjuncts with a single element is that element. -/
def ofConjuncts : List (AssertionWithoutId E T) → AssertionWithoutId E T
  | [conjunct] => conjunct
  | conjuncts => .and conjuncts

mutual

/-- Create a single Prusti assertion from the input. -/
def extractAssertion : Nat → TokenStream → Outcome (AssertionWithoutId E T)
  | 0, _ => .error .outOfFuel
  | fuel + 1, tokens =>
    if tokens.isEmpty then .ok (.and [])
    else if containsBothAndOr tokens then errorAmbiguousExpression
    else do
      let (assertion, rest) ← parsePrusti fuel tokens
      if rest.isEmpty then return assertion else errorUnexpected

/-- Parse a prusti expression. -/
def parsePrusti : Nat → TokenStream → Outcome (AssertionWithoutId E T × TokenStream)
  | 0, _ => .error .outOfFuel
  | fuel + 1, tokens => do
    let (lhs, tokens) ← parseConjunction fuel tokens
    match consumeOperator "==>" tokens with
    | none => return (lhs, tokens)
    | some tokens =>
      let (rhs, tokens) ← parsePrusti fuel tokens
      return (.implies lhs rhs, tokens)

def parseConjunction : Nat → TokenStream → Outcome (AssertionWithoutId E T × TokenStream)
  | 0, _ => .error .outOfFuel
  | fuel + 1, tokens => do
    let (conjunct, tokens) ← parseEntailment fuel tokens
    let (conjuncts, tokens) ← parseConjuncts fuel [conjunct] tokens
    return (ofConjuncts conjuncts, tokens)

/-- The loop over the conjuncts after the first one. -/
def parseConjuncts : Nat → List (AssertionWithoutId E T) → TokenStream →
    Outcome (List (AssertionWithoutId E T) × TokenStream)
  | 0, _, _ => .error .outOfFuel
  | fuel + 1, conjuncts, tokens =>
    match consumeOperator "&&" tokens with
    | none => .ok (conjuncts, tokens)
    | some tokens => do
      let (conjunct, tokens) ← parseEntailment fuel tokens
      parseConjuncts fuel (conjuncts ++ [conjunct]) tokens

def parseEntailment : Nat → TokenStream → Outcome (AssertionWithoutId E T × TokenStream)
  | 0, _ => .error .outOfFuel
  | fuel + 1, tokens =>
    if (peekGroup .parenthesis tokens && !isPartOfRustExpr tokens) ||
        peekKeyword "forall" tokens || peekKeyword "exists" tokens then
      parsePrimary fuel tokens
    else do
      let (lhs, tokens) ← parseRustUntil syn "," tokens
      match consumeOperator "|=" tokens with
      | none => return (.expr lhs, tokens)
      | some tokens =>
        let (vars, tokens) ← parseEntailmentVars syn tokens
        match consumeGroup .bracket tokens with
        | none => errorExpected "`[`"
        | some (stream, tokens) =>
          let (pres, posts) ← extractEntailmentRhs fuel true [] [] stream
          return (entailment syn lhs vars pres posts, tokens)

/-- The loop over the `requires` and `ensures` of an entailment. -/
def extractEntailmentRhs : Nat → Bool → List (AssertionWithoutId E T) →
    List (AssertionWithoutId E T) → TokenStream →
      Outcome (List (AssertionWithoutId E T) × List (AssertionWithoutId E T))
  | 0, _, _, _, _ => .error .outOfFuel
  | fuel + 1, first, pres, posts, tokens =>
    if tokens.isEmpty then .ok (pres, posts)
    else
      match (if first then some tokens else consumeOperator "," tokens) with
      | none => errorExpected "`,`"
      | some tokens =>
        match consumeKeyword "requires" tokens with
        | some tokens =>
          match consumeGroup .parenthesis tokens with
          | none => errorExpected "`(`"
          | some (stream, tokens) => do
            let pre ← extractAssertion fuel stream
            extractEntailmentRhs fuel false (pres ++ [pre]) posts tokens
        | none =>
          match consumeKeyword "ensures" tokens with
          | none => errorExpected "`requires` or `ensures`"
          | some tokens =>
            match consumeGroup .parenthesis tokens with
            | none => errorExpected "`(`"
            | some (stream, tokens) => do
              let post ← extractAssertion fuel stream
              extractEntailmentRhs fuel false pres (posts ++ [post]) tokens

/-- Parse a paren-delimited expression. -/
def parsePrimary : Nat → TokenStream → Outcome (AssertionWithoutId E T × TokenStream)
  | 0, _ => .error .outOfFuel
  | fuel + 1, tokens =>
    match consumeGroup .parenthesis tokens with
    | some (stream, tokens) => do
      let assertion ← extractAssertion fuel stream
      return (assertion, tokens)
    | none =>
      match consumeKeyword "forall" tokens with
      | some tokens =>
        match consumeGroup .parenthesis tokens with
        | none => errorExpected "`(`"
        | some (stream, tokens) => do
          let assertion ← extractQuantifierRhs fuel false stream
          return (assertion, tokens)
      | none =>
        match consumeKeyword "exists" tokens with
        | none => errorExpected "`(`, `forall` or `exists`"
        | some tokens =>
          match consumeGroup .parenthesis tokens with
          | none => errorExpected "`(`"
          | some (stream, tokens) => do
            let assertion ← extractQuantifierRhs fuel true stream
            return (assertion, tokens)

def extractQuantifierRhs : Nat → Bool → TokenStream → Outcome (AssertionWithoutId E T)
  | 0, _, _ => .error .outOfFuel
  | fuel + 1, exists_, tokens => do
    let (vars, tokens) ← parseQuantifierVars syn tokens
    let (body, tokens) ← parsePrusti fuel tokens
    let triggers ← parseTriggers syn tokens
    return quantifier exists_ vars triggers body

end

/-- Parse the reference of a pledge, if there is one. -/
def parseReference (tokens : TokenStream) :
    Outcome (Option (ExpressionWithoutId E) × TokenStream) :=
  if containsOperator tokens "=>" then do
    let (reference, tokens) ← parseRustUntil syn "=>" tokens
    return (some reference, (consumeOperator "=>" tokens).getD tokens)
  else .ok (none, tokens)

def parsePledgeAssertionOnly (fuel : Nat) (tokens : TokenStream) :
    Outcome ((Option (ExpressionWithoutId E) × AssertionWithoutId E T) × TokenStream) := do
  let (reference, tokens) ← parseReference syn tokens
  let (assertion, tokens) ← parsePrusti syn fuel tokens
  return ((reference, assertion), tokens)

def parsePledge (fuel : Nat) (tokens : TokenStream) :
    Outcome (PledgeWithoutId E T × TokenStream) := do
  let ((reference, assertion), tokens) ← parsePledgeAssertionOnly syn fuel tokens
  match consumeOperator "," tokens with
  | none => errorExpected "`,`"
  | some tokens =>
    let (rhs, tokens) ← parsePrusti syn fuel tokens
    return (⟨reference, some assertion, rhs⟩, tokens)

/-- Create a pledge from the input. -/
def extractPledge (fuel : Nat) (tokens : TokenStream) : Outcome (PledgeWithoutId E T) := do
  let (pledge, rest) ← parsePledge syn fuel tokens
  if rest.isEmpty then return pledge else errorUnexpected

/-- Create the rhs of a pledge from the input. -/
def extractPledgeRhsOnly (fuel : Nat) (tokens : TokenStream) : Outcome (PledgeWithoutId E T) := do
  let ((reference, assertion), rest) ← parsePledgeAssertionOnly syn fuel tokens
  if rest.isEmpty then return ⟨reference, none, assertion⟩ else errorUnexpected

end

section Consume

open TokenTree

variable {tokens rest stream : TokenStream}

theorem consumeOperator_eq_some_iff {operator : String} :
    consumeOperator operator tokens = some rest ↔ tokens = operatorTokens operator ++ rest := by
  rw [consumeOperator]
  have hlength : (operatorTokens operator).length = operator.length := by
    rw [operatorTokens, List.length_map, String.length_toList]
  split
  · next h =>
      rw [peekOperator_iff] at h
      obtain ⟨after, rfl⟩ := h
      rw [← hlength, List.drop_left, Option.some.injEq, List.append_cancel_left_eq]
  · next h =>
      rw [peekOperator_iff] at h
      simp only [reduceCtorEq, false_iff]
      rintro rfl
      exact h (List.prefix_append _ _)

theorem consumeKeyword_eq_some_iff {keyword : String} :
    consumeKeyword keyword tokens = some rest ↔ tokens = .ident keyword :: rest := by
  cases tokens with
  | nil => simp [consumeKeyword]
  | cons token tokens =>
    cases token <;> simp [consumeKeyword]

theorem consumeGroup_eq_some_iff {delimiter : Delimiter} :
    consumeGroup delimiter tokens = some (stream, rest) ↔
      tokens = .group delimiter stream :: rest := by
  cases tokens with
  | nil => simp [consumeGroup]
  | cons token tokens =>
    cases token with
    | group delimiter' stream' =>
      rw [consumeGroup]
      split
      · next h => simp [eq_of_beq h]
      · next h => simp [Ne.symm (ne_of_beq_false (Bool.eq_false_iff.mpr h))]
    | _ => simp [consumeGroup]

theorem popUntil_append (stop : TokenStream → Bool) (tokens : TokenStream) :
    (popUntil stop tokens).1 ++ (popUntil stop tokens).2 = tokens := by
  induction tokens with
  | nil => rfl
  | cons token tokens ih =>
    rw [popUntil]
    split
    · rfl
    · rw [List.cons_append, ih]

end Consume

end Preparser

end Prusti.Specs

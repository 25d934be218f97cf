/-
Boolean Rust expressions over opaque atoms: their tokens, and what they mean by Rust's own
precedence, read off the tokens and off the expression.
-/
import Prusti.Specs.Preparser

namespace Prusti.Specs

open Preparser

/-- The truth values of opaque atoms. -/
abbrev Valuation := TokenStream → Bool

/-- Tokens, each with the truth value of what is in it if it is a parenthesised group. -/
abbrev ValuedTokens := List (TokenTree × Bool)

/-- Put a token in front of the first part. -/
def consFirst (item : TokenTree × Bool) : List ValuedTokens → List ValuedTokens
  | [] => [[item]]
  | first :: rest => (item :: first) :: rest

/-- Split at a binary operator that is a character twice, `&&` or `||`. -/
def splitOperator (char : Char) : ValuedTokens → List ValuedTokens
  | [] => [[]]
  | [item] => [[item]]
  | item :: item' :: rest =>
    if item.1.isPunct char && item'.1.isPunct char then [] :: splitOperator char rest
    else consFirst item (splitOperator char (item' :: rest))

/-- The truth value of an operand without binary operators. -/
def operandValue (val : Valuation) : ValuedTokens → Bool
  | [(.group .parenthesis _, value)] => value
  | (.punct '!', _) :: rest => !operandValue val rest
  | items => val (items.map Prod.fst)

/-- In Rust, `||` binds weaker than `&&`. -/
def valuedTokensValue (val : Valuation) (items : ValuedTokens) : Bool :=
  (splitOperator '|' items).any fun disjunct =>
    (splitOperator '&' disjunct).all (operandValue val)

mutual

def groupValue (val : Valuation) : TokenTree → Bool
  | .group .parenthesis stream => valuedTokensValue val (valuedTokens val stream)
  | _ => false

def valuedTokens (val : Valuation) : TokenStream → ValuedTokens
  | [] => []
  | token :: rest => (token, groupValue val token) :: valuedTokens val rest

end

/-- The truth value of Rust tokens. -/
def rustValue (val : Valuation) (tokens : TokenStream) : Bool :=
  valuedTokensValue val (valuedTokens val tokens)

/-- An atom with no operator in it: a name or a literal, and the paths, fields and groups
that belong to it.  It is not the keyword of a quantifier. -/
structure OpaqueAtom where
  first : TokenTree
  rest : TokenStream
  first_operand : (∃ name, first = .ident name ∧ name ≠ "forall" ∧ name ≠ "exists") ∨
    ∃ text, first = .literal text
  plain : ∀ c, .punct c ∈ rest → c = '.' ∨ c = ':'
  noImplies : containsOperatorRecursive "==>" rest = false

def OpaqueAtom.tokens (atom : OpaqueAtom) : TokenStream := atom.first :: atom.rest

mutual

inductive RustOperand where
  | atom (atom : OpaqueAtom)
  | not (operand : RustOperand)
  | paren (expr : RustOr)

/-- Operands of `&&`. -/
inductive RustAnd where
  | single (operand : RustOperand)
  | and (operand : RustOperand) (rest : RustAnd)

/-- Operands of `||`: a Boolean Rust expression. -/
inductive RustOr where
  | single (conjuncts : RustAnd)
  | or (conjuncts : RustAnd) (rest : RustOr)

end

mutual

def RustOperand.print : RustOperand → TokenStream
  | .atom atom => atom.tokens
  | .not operand => .punct '!' :: operand.print
  | .paren expr => [.group .parenthesis expr.print]

def RustAnd.print : RustAnd → TokenStream
  | .single operand => operand.print
  | .and operand rest => operand.print ++ (operatorTokens "&&" ++ rest.print)

def RustOr.print : RustOr → TokenStream
  | .single conjuncts => conjuncts.print
  | .or conjuncts rest => conjuncts.print ++ (operatorTokens "||" ++ rest.print)

end

mutual

def RustOperand.value (val : Valuation) : RustOperand → Bool
  | .atom atom => val atom.tokens
  | .not operand => !operand.value val
  | .paren expr => expr.value val

def RustAnd.value (val : Valuation) : RustAnd → Bool
  | .single operand => operand.value val
  | .and operand rest => operand.value val && rest.value val

/-- The truth value of a Boolean Rust expression. -/
def RustOr.value (val : Valuation) : RustOr → Bool
  | .single conjuncts => conjuncts.value val
  | .or conjuncts rest => conjuncts.value val || rest.value val

end

section Split

variable {char : Char} {items : ValuedTokens}

/-- Tokens without the character are not split. -/
theorem splitOperator_plain (h : ∀ item ∈ items, item.1 ≠ .punct char) :
    splitOperator char items = [items] := by
  fun_induction splitOperator char items with
  | case1 => rfl
  | case2 => rfl
  | case3 item item' rest hboth _ =>
    simp only [Bool.and_eq_true, TokenTree.isPunct_eq_true_iff] at hboth
    exact absurd hboth.1 (h item List.mem_cons_self)
  | case4 item item' rest _ ih =>
    rw [ih fun other hmem => h other (List.mem_cons_of_mem _ hmem)]
    rfl

/-- Tokens without the character are the first part in front of the operator. -/
theorem splitOperator_append (h : ∀ item ∈ items, item.1 ≠ .punct char)
    (value value' : Bool) (rest : ValuedTokens) :
    splitOperator char (items ++ (.punct char, value) :: (.punct char, value') :: rest) =
      items :: splitOperator char rest := by
  induction items with
  | nil => simp [splitOperator, TokenTree.isPunct]
  | cons item items ih =>
    have hitem := h item List.mem_cons_self
    have ih := ih fun other hmem => h other (List.mem_cons_of_mem _ hmem)
    rw [List.cons_append]
    cases items with
    | nil =>
      rw [List.nil_append] at ih ⊢
      rw [splitOperator, if_neg, ih]
      · rfl
      · simp [hitem]
    | cons item' items =>
      rw [List.cons_append] at ih ⊢
      rw [splitOperator, if_neg, ih]
      · rfl
      · simp [hitem]

end Split

theorem valuedTokens_append (val : Valuation) (left right : TokenStream) :
    valuedTokens val (left ++ right) = valuedTokens val left ++ valuedTokens val right := by
  induction left with
  | nil => rfl
  | cons token left ih => rw [List.cons_append, valuedTokens, valuedTokens, ih, List.cons_append]

theorem valuedTokens_and (val : Valuation) (tokens : TokenStream) :
    valuedTokens val (operatorTokens "&&" ++ tokens) =
      (.punct '&', false) :: (.punct '&', false) :: valuedTokens val tokens :=
  rfl

theorem valuedTokens_or (val : Valuation) (tokens : TokenStream) :
    valuedTokens val (operatorTokens "||" ++ tokens) =
      (.punct '|', false) :: (.punct '|', false) :: valuedTokens val tokens :=
  rfl

theorem map_fst_valuedTokens (val : Valuation) (tokens : TokenStream) :
    (valuedTokens val tokens).map Prod.fst = tokens := by
  induction tokens with
  | nil => rfl
  | cons token tokens ih => rw [valuedTokens, List.map_cons, ih]

theorem fst_mem_of_mem_valuedTokens {val : Valuation} {tokens : TokenStream}
    {item : TokenTree × Bool} (h : item ∈ valuedTokens val tokens) : item.1 ∈ tokens := by
  rw [← map_fst_valuedTokens val tokens]
  exact List.mem_map_of_mem h

theorem OpaqueAtom.not_punct (atom : OpaqueAtom) {c : Char}
    (hc : c ∈ ['&', '|', '=', '!', ',']) : .punct c ∉ atom.tokens := by
  intro hmem
  rcases List.mem_cons.mp hmem with hfirst | hmem
  · rcases atom.first_operand with ⟨name, hname, _⟩ | ⟨text, htext⟩
    · rw [hname] at hfirst
      cases hfirst
    · rw [htext] at hfirst
      cases hfirst
  · rcases atom.plain c hmem with rfl | rfl
    · exact absurd hc (by decide)
    · exact absurd hc (by decide)

theorem RustOperand.not_punct (operand : RustOperand) {c : Char}
    (hc : c ∈ ['&', '|', '=', ',']) : .punct c ∉ operand.print := by
  match operand with
  | .atom a =>
    refine a.not_punct ?_
    simp only [List.mem_cons, List.not_mem_nil, or_false] at hc ⊢
    tauto
  | .not operand =>
    intro hmem
    rcases List.mem_cons.mp hmem with hfirst | hmem
    · cases hfirst
      revert hc
      decide
    · exact operand.not_punct hc hmem
  | .paren expr =>
    intro hmem
    cases List.mem_singleton.mp hmem

theorem RustAnd.not_punct (conjuncts : RustAnd) {c : Char} (hc : c ∈ ['|', '=', ',']) :
    .punct c ∉ conjuncts.print := by
  have hoperand : c ∈ ['&', '|', '=', ','] := List.mem_cons_of_mem _ hc
  match conjuncts with
  | .single operand => exact operand.not_punct hoperand
  | .and operand rest =>
    rw [print, List.mem_append, List.mem_append]
    rintro (hmem | hmem | hmem)
    · exact operand.not_punct hoperand hmem
    · rw [punct_mem_operatorTokens_iff] at hmem
      have heq : c = '&' := by simpa using hmem
      exact absurd (heq ▸ hc) (by decide)
    · exact rest.not_punct hc hmem

theorem RustOr.not_punct (expr : RustOr) {c : Char} (hc : c ∈ ['=', ',']) :
    .punct c ∉ expr.print := by
  have hconjuncts : c ∈ ['|', '=', ','] := List.mem_cons_of_mem _ hc
  match expr with
  | .single conjuncts => exact conjuncts.not_punct hconjuncts
  | .or conjuncts rest =>
    rw [print, List.mem_append, List.mem_append]
    rintro (hmem | hmem | hmem)
    · exact conjuncts.not_punct hconjuncts hmem
    · rw [punct_mem_operatorTokens_iff] at hmem
      have heq : c = '|' := by simpa using hmem
      exact absurd (heq ▸ hc) (by decide)
    · exact rest.not_punct hc hmem

mutual

theorem RustOperand.operandValue_print (operand : RustOperand) (val : Valuation) :
    operandValue val (valuedTokens val operand.print) = operand.value val := by
  match operand with
  | .atom atom =>
    have hmap := map_fst_valuedTokens val atom.tokens
    rw [RustOperand.print, RustOperand.value]
    rw [OpaqueAtom.tokens, valuedTokens] at hmap ⊢
    rcases atom.first_operand with ⟨name, hname, _⟩ | ⟨text, htext⟩
    · rw [hname] at hmap ⊢
      exact congrArg val hmap
    · rw [htext] at hmap ⊢
      exact congrArg val hmap
  | .not operand =>
    rw [RustOperand.print, valuedTokens, operandValue, operand.operandValue_print,
      RustOperand.value]
  | .paren expr =>
    rw [RustOperand.print, valuedTokens, valuedTokens, operandValue, groupValue, RustOperand.value]
    exact expr.rustValue_print val

theorem RustAnd.all_print (conjuncts : RustAnd) (val : Valuation) :
    (splitOperator '&' (valuedTokens val conjuncts.print)).all (operandValue val) =
      conjuncts.value val := by
  match conjuncts with
  | .single operand =>
    rw [RustAnd.print, splitOperator_plain, List.all_cons, List.all_nil, Bool.and_true,
      RustAnd.value]
    · exact operand.operandValue_print val
    · intro item hmem heq
      exact operand.not_punct (by decide) (heq ▸ fst_mem_of_mem_valuedTokens hmem)
  | .and operand rest =>
    have hplain : ∀ item ∈ valuedTokens val operand.print, item.1 ≠ .punct '&' := by
      intro item hmem heq
      exact operand.not_punct (by decide) (heq ▸ fst_mem_of_mem_valuedTokens hmem)
    rw [RustAnd.print, valuedTokens_append, valuedTokens_and, splitOperator_append hplain,
      List.all_cons, operand.operandValue_print, rest.all_print, RustAnd.value]

/-- The truth value of the print is the truth value of the expression. -/
theorem RustOr.rustValue_print (expr : RustOr) (val : Valuation) :
    rustValue val expr.print = expr.value val := by
  match expr with
  | .single conjuncts =>
    rw [rustValue, valuedTokensValue, RustOr.print, splitOperator_plain, List.any_cons,
      List.any_nil, Bool.or_false, RustOr.value]
    · exact conjuncts.all_print val
    · intro item hmem heq
      exact conjuncts.not_punct (by decide) (heq ▸ fst_mem_of_mem_valuedTokens hmem)
  | .or conjuncts rest =>
    have hplain : ∀ item ∈ valuedTokens val conjuncts.print, item.1 ≠ .punct '|' := by
      intro item hmem heq
      exact conjuncts.not_punct (by decide) (heq ▸ fst_mem_of_mem_valuedTokens hmem)
    have hrest := rest.rustValue_print val
    rw [rustValue, valuedTokensValue] at hrest
    rw [rustValue, valuedTokensValue, RustOr.print, valuedTokens_append, valuedTokens_or,
      splitOperator_append hplain, List.any_cons, conjuncts.all_print, hrest, RustOr.value]

end

end Prusti.Specs

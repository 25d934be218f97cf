/-
What the parser makes of a Boolean Rust expression: the conjunction of what stands between
the `&&`, which is what Rust means unless `||` stands beside `&&`.
-/
import Prusti.Specs.AmbiguityGuard
import Prusti.Specs.PledgeRoundTrip

namespace Prusti.Specs

open Prusti.Lib Preparser

variable {E T : Type} {syn : Syn E T}

variable {last : TokenStream} {others : List Disjunction} {expr : RustOr}
  {assertion : AssertionWithoutId E T}

mutual

/-- The truth value of an assertion, with `And` read as conjunction and its expressions
read by Rust's own precedence. -/
def Assertion.value (syn : Syn E T) (val : Valuation) : AssertionWithoutId E T → Option Bool
  | .expr leaf => some (rustValue val (syn.toTokens leaf.expr))
  | .and assertions => Assertion.valueAll syn val assertions
  | _ => none

def Assertion.valueAll (syn : Syn E T) (val : Valuation) :
    List (AssertionWithoutId E T) → Option Bool
  | [] => some true
  | assertion :: rest => do
    let first ← assertion.value syn val
    let others ← Assertion.valueAll syn val rest
    return first && others

end

theorem Assertion.value_ofConjuncts (syn : Syn E T) (val : Valuation)
    (conjuncts : List (AssertionWithoutId E T)) :
    (ofConjuncts conjuncts).value syn val = Assertion.valueAll syn val conjuncts := by
  unfold ofConjuncts
  split
  · next conjunct =>
      rw [Assertion.valueAll, Assertion.valueAll]
      cases conjunct.value syn val <;> simp
  · rw [Assertion.value]

/-- The assertion has the truth value of the expression under every valuation. -/
def RustOr.Agrees (syn : Syn E T) (expr : RustOr) (assertion : AssertionWithoutId E T) : Prop :=
  ∀ val, assertion.value syn val = some (expr.value val)

namespace Disjunction

/-- A parenthesised expression that the guard of the parser rejects. -/
def ambiguous : Disjunction → Bool
  | ⟨.paren expr, []⟩ => containsBothAndOr expr.print
  | _ => false

/-- A group in front of a comma is not taken for an assertion. -/
def refused (beforeComma : Bool) : Disjunction → List Disjunction → Bool
  | disjuncts, [] => !beforeComma && disjuncts.ambiguous
  | disjuncts, next :: rest => disjuncts.ambiguous || refused beforeComma next rest

variable (disjuncts : Disjunction) {beforeComma : Bool} {rest : TokenStream}

theorem endsOperand_print : EndsOperand disjuncts.print := by
  rw [← print_toRustOr]
  exact disjuncts.toRustOr.endsOperand_print

theorem not_punct {c : Char} (hc : c ∈ ['&', '=', ',']) : .punct c ∉ disjuncts.print := by
  have hoperand : c ∈ ['&', '|', '=', ','] := by
    revert hc
    simp only [List.mem_cons]
    tauto
  intro hmem
  rw [print, List.mem_append, List.mem_flatMap] at hmem
  rcases hmem with hmem | ⟨operand, _, hmem⟩
  · exact disjuncts.first.not_punct hoperand hmem
  · rw [List.mem_append, punct_mem_operatorTokens_iff] at hmem
    rcases hmem with hmem | hmem
    · have heq : c = '|' := by simpa using hmem
      exact absurd (heq ▸ hc) (by decide)
    · exact operand.not_punct hoperand hmem

theorem popUntil_print (h : Follower beforeComma rest) :
    popUntil (endsRust ",") (disjuncts.print ++ rest) = (disjuncts.print, rest) := by
  refine popUntil_plain disjuncts.endsOperand_print (by decide) (fun operator hmem => ?_)
    h.ends.ends
  have hall : ∀ operator ∈ rustEnds ",", operator.toList.any (· ∈ ['&', '=', ',']) = true := by
    decide
  obtain ⟨c, hc, hmem⟩ := List.any_eq_true.mp (hall operator hmem)
  exact containsOperator_eq_false hc (disjuncts.not_punct (of_decide_eq_true hmem))

/-- Where a Rust expression is expected, the whole disjunction is read. -/
theorem of_parseRustUntil (h : Follower beforeComma rest) {lhs : ExpressionWithoutId E}
    (hparse : parseRustUntil syn "," (disjuncts.print ++ rest) = .ok (lhs, last)) :
    last = rest ∧ syn.toTokens lhs.expr = disjuncts.print := by
  obtain ⟨_, ⟨expr, hexpr, rfl⟩, rfl⟩ := (parseRustUntil_eq_ok_iff (disjuncts.popUntil_print h)
    disjuncts.endsOperand_print.ne_nil).mp hparse
  exact ⟨rfl, syn.toTokens_parseExpr hexpr⟩

theorem exists_cons_print : ∃ token tokens, disjuncts.print = token :: tokens ∧
    token ≠ .ident "forall" ∧ token ≠ .ident "exists" := by
  obtain ⟨first, operands⟩ := disjuncts
  cases first with
  | atom atom =>
    refine ⟨_, _, rfl, ?_⟩
    rcases atom.first_operand with ⟨name, hname, hforall, hexists⟩ | ⟨text, htext⟩
    · rw [hname]
      simp [hforall, hexists]
    · rw [htext]
      simp
  | not operand => exact ⟨_, _, rfl, by simp, by simp⟩
  | paren expr => exact ⟨_, _, rfl, by simp, by simp⟩

theorem peekKeyword_print {keyword : String} (h : keyword = "forall" ∨ keyword = "exists")
    (rest : TokenStream) : peekKeyword keyword (disjuncts.print ++ rest) = false := by
  obtain ⟨token, tokens, hprint, hforall, hexists⟩ := disjuncts.exists_cons_print
  rw [hprint, List.cons_append]
  cases token with
  | ident name =>
    rw [peekKeyword, beq_eq_false_iff_ne]
    rintro rfl
    rcases h with rfl | rfl
    · exact hforall rfl
    · exact hexists rfl
  | _ => rfl

/-- Only a lone parenthesised expression that no comma follows is taken for an assertion. -/
theorem primary_iff (h : Follower beforeComma rest) :
    ((peekGroup .parenthesis (disjuncts.print ++ rest) &&
      !isPartOfRustExpr (disjuncts.print ++ rest)) ||
        peekKeyword "forall" (disjuncts.print ++ rest) ||
        peekKeyword "exists" (disjuncts.print ++ rest)) = true ↔
      beforeComma = false ∧ ∃ expr, disjuncts = ⟨.paren expr, []⟩ := by
  rw [disjuncts.peekKeyword_print (.inl rfl), disjuncts.peekKeyword_print (.inr rfl),
    Bool.or_false, Bool.or_false]
  obtain ⟨first, operands⟩ := disjuncts
  cases first with
  | atom atom =>
    have hgroup : peekGroup .parenthesis (print ⟨.atom atom, operands⟩ ++ rest) = false := by
      rw [print, RustOperand.print, OpaqueAtom.tokens, List.cons_append, List.cons_append]
      rcases atom.first_operand with ⟨name, hname, _⟩ | ⟨text, htext⟩
      · rw [hname]
        rfl
      · rw [htext]
        rfl
    simp [hgroup]
  | not operand =>
    have hgroup : peekGroup .parenthesis (print ⟨.not operand, operands⟩ ++ rest) = false := rfl
    simp [hgroup]
  | paren expr =>
    cases operands with
    | nil =>
      have hprint : print ⟨.paren expr, []⟩ ++ rest = .group .parenthesis expr.print :: rest := rfl
      rw [hprint]
      simp [h.ends.isPartOfRustExpr_cons, peekGroup]
    | cons second operands =>
      have hpart : isPartOfRustExpr (print ⟨.paren expr, second :: operands⟩ ++ rest) = true := rfl
      simp [hpart]

end Disjunction

/-- What is read where a disjunction stands means the disjunction, and the guard of the
parser did not reject it. -/
def Disjunction.ReadBack (syn : Syn E T) (disjuncts : Disjunction) : Prop :=
  ∀ ⦃beforeComma rest assertion last⦄, Follower beforeComma rest →
    Parses syn .entailment (disjuncts.print ++ rest) assertion last →
      last = rest ∧ (∀ val, assertion.value syn val = some (disjuncts.value val)) ∧
        refused beforeComma disjuncts [] = false

/-- What is read where an expression stands is the reading in which `||` binds tighter. -/
def RustOr.ReadBack (syn : Syn E T) (expr : RustOr) : Prop :=
  ∀ ⦃beforeComma rest assertion last⦄, Follower beforeComma rest →
    consumeOperator "&&" rest = none → consumeOperator "==>" rest = none →
      Parses syn .prusti (expr.print ++ rest) assertion last →
        last = rest ∧ (∀ val, assertion.value syn val = some (expr.orFirst.value val)) ∧
          Disjunction.refused beforeComma expr.orFirst.first expr.orFirst.rest = false

theorem Disjunction.readBack (disjuncts : Disjunction)
    (hparen : ∀ expr, disjuncts = ⟨.paren expr, []⟩ → expr.ReadBack syn) :
    disjuncts.ReadBack syn := by
  intro beforeComma rest assertion last hrest hparse
  by_cases hprimary : beforeComma = false ∧ ∃ expr, disjuncts = ⟨.paren expr, []⟩
  · have hparse := hparse.of_primary ((disjuncts.primary_iff hrest).mpr hprimary)
    obtain ⟨rfl, expr, rfl⟩ := hprimary
    obtain ⟨rfl, hbody⟩ := hparse.of_group
    obtain ⟨hunambiguous, hbody⟩ := hbody.of_assertion expr.print_ne_nil
    rw [← List.append_nil expr.print] at hbody
    obtain ⟨_, hvalue, _⟩ := hparen expr rfl .nil rfl rfl hbody
    refine ⟨rfl, fun val => ?_, hunambiguous⟩
    rw [hvalue, RustOr.readAlike_of_not_mixed (RustOr.not_mixed_of_unambiguous hunambiguous)]
    simp [value, RustOperand.value]
  · have hprimary' := hprimary
    rw [← disjuncts.primary_iff hrest, Bool.not_eq_true] at hprimary'
    obtain ⟨lhs, mid, hlhs, hresult⟩ := hparse.of_not_primary hprimary'
    obtain ⟨rfl, htokens⟩ := disjuncts.of_parseRustUntil hrest hlhs
    obtain ⟨rfl, rfl⟩ := hresult.1 hrest.not_entails
    refine ⟨rfl, fun val => ?_, ?_⟩
    · rw [Assertion.value, htokens, disjuncts.rustValue_print]
    · cases beforeComma with
      | true => rfl
      | false =>
        rw [not_and, not_exists] at hprimary
        have hnot := hprimary rfl
        obtain ⟨first, operands⟩ := disjuncts
        cases first with
        | paren expr =>
          cases operands with
          | nil => exact absurd rfl (hnot expr)
          | cons => rfl
        | _ => rfl

/-- Step by step through the conjuncts. -/
theorem readBack_conjuncts {disjuncts : Disjunction}
    (hread : ∀ disjuncts' ∈ disjuncts :: others, disjuncts'.ReadBack syn) {beforeComma : Bool}
    {rest mid : TokenStream} (hrest : Follower beforeComma rest)
    (hdone : consumeOperator "&&" rest = none) {before conjuncts : List (AssertionWithoutId E T)}
    {conjunct : AssertionWithoutId E T}
    (hparse : Parses syn .entailment (disjuncts.print ++
      (others.flatMap (fun disjuncts' => operatorTokens "&&" ++ disjuncts'.print) ++ rest))
        conjunct mid)
    (hloop : Parses syn (.conjuncts (before ++ [conjunct])) mid (.and conjuncts) last) :
    ∃ added, conjuncts = before ++ added ∧ last = rest ∧
      (∀ val, Assertion.valueAll syn val added = some (disjuncts.value val &&
        others.all fun disjuncts' => disjuncts'.value val)) ∧
      Disjunction.refused beforeComma disjuncts others = false := by
  induction others generalizing disjuncts before conjunct mid with
  | nil =>
    rw [List.flatMap_nil, List.nil_append] at hparse
    obtain ⟨rfl, hvalue, hrefused⟩ := hread disjuncts List.mem_cons_self hrest hparse
    rcases hloop.of_conjuncts with ⟨_, rfl, rfl⟩ | ⟨_, _, _, hnext, _⟩
    · refine ⟨[conjunct], rfl, rfl, fun val => ?_, hrefused⟩
      simp [Assertion.valueAll, hvalue]
    · rw [hdone] at hnext
      cases hnext
  | cons next others ih =>
    rw [List.flatMap_cons, List.append_assoc, List.append_assoc] at hparse
    obtain ⟨rfl, hvalue, hrefused⟩ := hread disjuncts List.mem_cons_self (.and _) hparse
    rcases hloop.of_conjuncts with ⟨hnone, _⟩ | ⟨tokens, conjunct', mid', hnext, hparse', hloop⟩
    · cases hnone
    · cases hnext
      have hread' : ∀ disjuncts' ∈ next :: others, disjuncts'.ReadBack syn :=
        fun disjuncts' hmem => hread disjuncts' (List.mem_cons_of_mem _ hmem)
      obtain ⟨added, rfl, rfl, hadded, hrefused'⟩ := ih hread' hparse' hloop
      refine ⟨conjunct :: added, by simp, rfl, fun val => ?_, ?_⟩
      · simp [Assertion.valueAll, hvalue, hadded]
      · rw [Disjunction.refused, hrefused', Bool.or_false]
        exact hrefused

theorem OrFirst.print_append (conjuncts : OrFirst) (rest : TokenStream) :
    conjuncts.print ++ rest = conjuncts.first.print ++ (conjuncts.rest.flatMap
      (fun disjuncts => operatorTokens "&&" ++ disjuncts.print) ++ rest) :=
  List.append_assoc _ _ _

theorem size_le_of_mem {token : TokenTree} {tokens : TokenStream} (h : token ∈ tokens) :
    token.size ≤ TokenTree.streamSize tokens := by
  obtain ⟨front, back, rfl⟩ := List.append_of_mem h
  rw [TokenTree.streamSize_append, TokenTree.streamSize_cons]
  omega

theorem OrFirst.mem_print {conjuncts : OrFirst} {disjuncts : Disjunction}
    (h : disjuncts ∈ conjuncts.disjunctions) : disjuncts.print ⊆ conjuncts.print := by
  rcases List.mem_cons.mp h with rfl | h
  · exact List.subset_append_left _ _
  · intro token hmem
    exact List.mem_append_right _ (List.mem_flatMap.mpr ⟨disjuncts, h,
      List.mem_append_right _ hmem⟩)

/-- A parenthesised operand is smaller than the expression. -/
theorem RustOr.mem_print_of_paren {body : RustOr}
    (h : ⟨.paren body, []⟩ ∈ expr.orFirst.disjunctions) :
    .group .parenthesis body.print ∈ expr.print := by
  rw [← expr.print_orFirst]
  exact OrFirst.mem_print h List.mem_cons_self

theorem RustOr.readBack (expr : RustOr) : expr.ReadBack syn := by
  induction hsize : TokenTree.streamSize expr.print using Nat.strong_induction_on
    generalizing expr with
  | h size ih =>
    subst hsize
    intro beforeComma rest assertion last hrest hdone hdone' hparse
    have hread : ∀ disjuncts ∈ expr.orFirst.disjunctions, disjuncts.ReadBack syn := by
      intro disjuncts hmem
      refine disjuncts.readBack fun body heq => ?_
      subst heq
      have hlt := size_le_of_mem (RustOr.mem_print_of_paren hmem)
      rw [TokenTree.size_group] at hlt
      exact ih _ (by omega) body rfl
    obtain ⟨lhs, mid, hconjunction, hresult⟩ := hparse.of_prusti
    obtain ⟨conjunct, mid', conjuncts, hfirst, hloop, rfl⟩ := hconjunction.of_conjunction
    rw [← expr.print_orFirst, OrFirst.print_append] at hfirst
    have hloop : Parses syn (.conjuncts ([] ++ [conjunct])) mid' (.and conjuncts) mid := hloop
    obtain ⟨added, rfl, rfl, hvalue, hrefused⟩ := readBack_conjuncts hread hrest hdone hfirst hloop
    rcases hresult with ⟨_, rfl, rfl⟩ | ⟨_, _, hnext, _⟩
    · refine ⟨rfl, fun val => ?_, hrefused⟩
      rw [Assertion.value_ofConjuncts, hvalue]
      rfl
    · rw [hdone'] at hnext
      cases hnext

section Accepted

variable {beforeComma : Bool} {disjuncts : Disjunction}

mutual

theorem RustOperand.noImplies (operand : RustOperand) {token : TokenTree}
    (hmem : token ∈ operand.print) : tokenContainsOperator "==>" token = false := by
  match operand with
  | .atom atom =>
    rcases List.mem_cons.mp hmem with rfl | hmem
    · rcases atom.first_operand with ⟨name, hname, _⟩ | ⟨text, htext⟩
      · rw [hname]
        rfl
      · rw [htext]
        rfl
    · exact ((containsOperatorRecursive_eq_false_iff (by decide)).mp atom.noImplies).2 token hmem
  | .not operand =>
    rcases List.mem_cons.mp hmem with rfl | hmem
    · rfl
    · exact operand.noImplies hmem
  | .paren expr =>
    obtain rfl := List.mem_singleton.mp hmem
    refine (containsOperatorRecursive_eq_false_iff (by decide)).mpr ⟨?_, ?_⟩
    · exact containsOperator_eq_false (c := '=') (by decide) (expr.not_punct (by decide))
    · intro token htoken
      exact expr.noImplies htoken

theorem RustAnd.noImplies (conjuncts : RustAnd) {token : TokenTree}
    (hmem : token ∈ conjuncts.print) : tokenContainsOperator "==>" token = false := by
  match conjuncts with
  | .single operand => exact operand.noImplies hmem
  | .and operand rest =>
    rcases List.mem_append.mp hmem with hmem | hmem
    · exact operand.noImplies hmem
    · rcases List.mem_append.mp hmem with hmem | hmem
      · obtain ⟨c, _, rfl⟩ := List.mem_map.mp hmem
        rfl
      · exact rest.noImplies hmem

theorem RustOr.noImplies (expr : RustOr) {token : TokenTree} (hmem : token ∈ expr.print) :
    tokenContainsOperator "==>" token = false := by
  match expr with
  | .single conjuncts => exact conjuncts.noImplies hmem
  | .or conjuncts rest =>
    rcases List.mem_append.mp hmem with hmem | hmem
    · exact conjuncts.noImplies hmem
    · rcases List.mem_append.mp hmem with hmem | hmem
      · obtain ⟨c, _, rfl⟩ := List.mem_map.mp hmem
        rfl
      · exact rest.noImplies hmem

end

/-- `syn` parses the Boolean expressions over these atoms. -/
def ParsesOver (syn : Syn E T) (atoms : List TokenStream) : Prop :=
  ∀ expr : RustOr, expr.atoms ⊆ atoms → ∃ parsed, syn.parseExpr expr.print = .ok parsed

theorem Disjunction.parseRustUntil_print (disjuncts : Disjunction) {rest : TokenStream}
    (h : Follower beforeComma rest) (hsyn : ParsesOver syn disjuncts.atoms) :
    ∃ lhs, parseRustUntil syn "," (disjuncts.print ++ rest) = .ok (lhs, rest) := by
  obtain ⟨parsed, hparsed⟩ := hsyn disjuncts.toRustOr (by rw [disjuncts.atoms_toRustOr]; simp)
  rw [disjuncts.print_toRustOr] at hparsed
  have hno : containsOperatorRecursive "==>" disjuncts.print = false := by
    rw [← disjuncts.print_toRustOr, containsOperatorRecursive_eq_false_iff (by decide)]
    refine ⟨?_, fun token hmem => disjuncts.toRustOr.noImplies hmem⟩
    exact containsOperator_eq_false (c := '=') (by decide)
      (disjuncts.toRustOr.not_punct (by decide))
  refine ⟨expression parsed, ?_⟩
  simp [parseRustUntil, disjuncts.popUntil_print h, hno, disjuncts.endsOperand_print.ne_nil,
    hparsed]

/-- Nothing in the conjunct is rejected. -/
def Disjunction.Accepted (syn : Syn E T) (disjuncts : Disjunction) : Prop :=
  ∀ ⦃beforeComma rest⦄, Follower beforeComma rest → refused beforeComma disjuncts [] = false →
    ∃ assertion, Parses syn .entailment (disjuncts.print ++ rest) assertion rest

def RustOr.Accepted (syn : Syn E T) (expr : RustOr) : Prop :=
  ∀ ⦃beforeComma rest⦄, Follower beforeComma rest → consumeOperator "&&" rest = none →
    consumeOperator "==>" rest = none →
      Disjunction.refused beforeComma expr.orFirst.first expr.orFirst.rest = false →
        ∃ assertion, Parses syn .prusti (expr.print ++ rest) assertion rest

theorem Disjunction.accepted (disjuncts : Disjunction) (hsyn : ParsesOver syn disjuncts.atoms)
    (hparen : ∀ expr, disjuncts = ⟨.paren expr, []⟩ → containsBothAndOr expr.print = false →
      ∃ assertion, Parses syn .prusti expr.print assertion []) :
    disjuncts.Accepted syn := by
  intro beforeComma rest hrest hrefused
  by_cases hprimary : beforeComma = false ∧ ∃ expr, disjuncts = ⟨.paren expr, []⟩
  · have hguard := (disjuncts.primary_iff hrest).mpr hprimary
    obtain ⟨rfl, expr, rfl⟩ := hprimary
    obtain ⟨assertion, hbody⟩ := hparen expr rfl hrefused
    exact ⟨assertion, .primary hguard (.paren (consumeGroup_eq_some_iff.mpr rfl)
      (.assertion expr.print_ne_nil hrefused hbody))⟩
  · rw [← disjuncts.primary_iff hrest, Bool.not_eq_true] at hprimary
    obtain ⟨lhs, hlhs⟩ := disjuncts.parseRustUntil_print hrest hsyn
    exact ⟨.expr lhs, .expr hprimary hlhs hrest.not_entails⟩

theorem exists_parses_conjuncts
    (haccepted : ∀ disjuncts' ∈ disjuncts :: others, disjuncts'.Accepted syn) {rest : TokenStream}
    (hrest : Follower beforeComma rest) (hdone : consumeOperator "&&" rest = none)
    (hrefused : Disjunction.refused beforeComma disjuncts others = false)
    (before : List (AssertionWithoutId E T)) :
    ∃ conjunct mid conjuncts, Parses syn .entailment (disjuncts.print ++
      (others.flatMap (fun disjuncts' => operatorTokens "&&" ++ disjuncts'.print) ++ rest))
        conjunct mid ∧
      Parses syn (.conjuncts (before ++ [conjunct])) mid (.and conjuncts) rest := by
  induction others generalizing disjuncts before with
  | nil =>
    obtain ⟨conjunct, hparse⟩ := haccepted disjuncts List.mem_cons_self hrest hrefused
    exact ⟨conjunct, rest, before ++ [conjunct], hparse, .done hdone⟩
  | cons next others ih =>
    rw [Disjunction.refused, Bool.or_eq_false_iff] at hrefused
    rw [List.flatMap_cons, List.append_assoc, List.append_assoc]
    obtain ⟨conjunct, hparse⟩ := haccepted disjuncts List.mem_cons_self (.and _) hrefused.1
    have haccepted' : ∀ disjuncts' ∈ next :: others, disjuncts'.Accepted syn :=
      fun disjuncts' hmem => haccepted disjuncts' (List.mem_cons_of_mem _ hmem)
    obtain ⟨conjunct', mid, conjuncts, hparse', hloop⟩ :=
      ih haccepted' hrefused.2 (before ++ [conjunct])
    exact ⟨conjunct, _, conjuncts, hparse,
      .next (consumeOperator_eq_some_iff.mpr rfl) hparse' hloop⟩

theorem refused_of_unambiguous
    (h : ∀ disjuncts' ∈ disjuncts :: others, disjuncts'.ambiguous = false) :
    Disjunction.refused beforeComma disjuncts others = false := by
  induction others generalizing disjuncts with
  | nil => rw [Disjunction.refused, h disjuncts List.mem_cons_self, Bool.and_false]
  | cons next others ih =>
    rw [Disjunction.refused, h disjuncts List.mem_cons_self, Bool.false_or]
    exact ih fun disjuncts' hmem => h disjuncts' (List.mem_cons_of_mem _ hmem)

/-- The guard of the parser looks into the groups. -/
theorem RustOr.not_refused_of_unambiguous (h : containsBothAndOr expr.print = false)
    (beforeComma : Bool) :
    Disjunction.refused beforeComma expr.orFirst.first expr.orFirst.rest = false := by
  refine refused_of_unambiguous fun disjuncts hmem => ?_
  match disjuncts with
  | ⟨.paren body, []⟩ => exact tokenContainsBothAndOr_of_mem h (RustOr.mem_print_of_paren hmem)
  | ⟨.paren _, _ :: _⟩ => rfl
  | ⟨.atom _, _⟩ => rfl
  | ⟨.not _, _⟩ => rfl

theorem OrFirst.atoms_subset {conjuncts : OrFirst} (h : disjuncts ∈ conjuncts.disjunctions) :
    disjuncts.atoms ⊆ conjuncts.atoms := by
  rcases List.mem_cons.mp h with rfl | h
  · exact List.subset_append_left _ _
  · intro atom hmem
    exact List.mem_append_right _ (List.mem_flatMap.mpr ⟨disjuncts, h, hmem⟩)

theorem ParsesOver.mono {atoms atoms' : List TokenStream} (h : ParsesOver syn atoms)
    (hsubset : atoms' ⊆ atoms) : ParsesOver syn atoms' :=
  fun expr hexpr => h expr (List.Subset.trans hexpr hsubset)

theorem RustOr.accepted (expr : RustOr) (hsyn : ParsesOver syn expr.atoms) : expr.Accepted syn := by
  induction hsize : TokenTree.streamSize expr.print using Nat.strong_induction_on
    generalizing expr with
  | h size ih =>
    subst hsize
    intro beforeComma rest hrest hdone hdone' hrefused
    have haccepted : ∀ disjuncts ∈ expr.orFirst.disjunctions, disjuncts.Accepted syn := by
      intro disjuncts hmem
      have hatoms : disjuncts.atoms ⊆ expr.atoms := by
        rw [← expr.atoms_orFirst]
        exact OrFirst.atoms_subset hmem
      refine disjuncts.accepted (hsyn.mono hatoms) fun body heq hunambiguous => ?_
      subst heq
      have hlt := size_le_of_mem (RustOr.mem_print_of_paren hmem)
      rw [TokenTree.size_group] at hlt
      have hbody : ParsesOver syn body.atoms := by
        refine hsyn.mono (List.Subset.trans ?_ hatoms)
        exact List.subset_append_left _ _
      have hparse := ih _ (by omega) body hbody rfl .nil rfl rfl
        (RustOr.not_refused_of_unambiguous hunambiguous false)
      rwa [List.append_nil] at hparse
    obtain ⟨conjunct, mid, conjuncts, hparse, hloop⟩ :=
      exists_parses_conjuncts haccepted hrest hdone hrefused []
    rw [← OrFirst.print_append, expr.print_orFirst] at hparse
    exact ⟨_, .prusti (.conjunction hparse hloop) hdone'⟩

end Accepted

/-- Where the parser reads an assertion. -/
inductive Side where
  /-- By `extract_assertion`. -/
  | assertion
  /-- By `extract_pledge_rhs_only`. -/
  | rhsOnly
  /-- By `extract_pledge`, in front of the comma. -/
  | lhs
  /-- By `extract_pledge`, after the comma. -/
  | rhs
deriving Repr, DecidableEq

/-- If the parser accepts the expression on this side, after a reference or not, then the
assertion means what Rust means. -/
def RustOr.MeansRust (syn : Syn E T) (expr : RustOr) : Side → Prop
  | .assertion =>
    ∀ assertion, extractAssertion syn (fuelFor expr.print) expr.print = .ok assertion →
      expr.Agrees syn assertion
  | .rhsOnly =>
    ∀ tokens reference pledge, parseReference syn tokens = .ok (reference, expr.print) →
      extractPledgeRhsOnly syn (fuelFor tokens) tokens = .ok pledge → expr.Agrees syn pledge.rhs
  | .lhs =>
    ∀ tokens reference pledge, ∀ other : RustOr,
      parseReference syn tokens =
        .ok (reference, expr.print ++ (operatorTokens "," ++ other.print)) →
      extractPledge syn (fuelFor tokens) tokens = .ok pledge →
        ∃ lhs, pledge.lhs = some lhs ∧ expr.Agrees syn lhs
  | .rhs =>
    ∀ tokens reference pledge, ∀ other : RustOr,
      parseReference syn tokens =
        .ok (reference, other.print ++ (operatorTokens "," ++ expr.print)) →
      extractPledge syn (fuelFor tokens) tokens = .ok pledge → expr.Agrees syn pledge.rhs

/-- A parenthesised operand of `&&` that the parser takes for an assertion mixes `&&` and
`||` in some group. -/
def RustOr.refused (expr : RustOr) (side : Side) : Bool :=
  Disjunction.refused (side == .lhs) expr.orFirst.first expr.orFirst.rest

theorem parseReference_none {tokens : TokenStream} (h : .punct '=' ∉ tokens) :
    parseReference syn tokens = .ok (none, tokens) := by
  rw [parseReference, containsOperator_eq_false (c := '=') (by decide) h]
  rfl

theorem parseReference_sides (syn : Syn E T) (left right : RustOr) :
    parseReference syn (left.print ++ (operatorTokens "," ++ right.print)) =
      .ok (none, left.print ++ (operatorTokens "," ++ right.print)) := by
  refine parseReference_none ?_
  rw [List.mem_append, List.mem_append]
  rintro (hmem | hmem | hmem)
  · exact left.not_punct (by decide) hmem
  · rw [punct_mem_operatorTokens_iff] at hmem
    revert hmem
    decide
  · exact right.not_punct (by decide) hmem

/-- Accepted at the end of the tokens. -/
theorem RustOr.readBack_nil (expr : RustOr) (h : Parses syn .prusti expr.print assertion last) :
    last = [] ∧ (∀ val, assertion.value syn val = some (expr.orFirst.value val)) ∧
      Disjunction.refused false expr.orFirst.first expr.orFirst.rest = false := by
  rw [← List.append_nil expr.print] at h
  exact expr.readBack .nil rfl rfl h

theorem RustOr.accepted_nil (expr : RustOr) (hsyn : ParsesOver syn expr.atoms)
    (h : Disjunction.refused false expr.orFirst.first expr.orFirst.rest = false) :
    ∃ assertion, Parses syn .prusti expr.print assertion [] := by
  have haccepted := expr.accepted hsyn .nil rfl rfl h
  rwa [List.append_nil] at haccepted

theorem RustOr.agrees_of_readAlike (h : expr.ReadAlike)
    (hvalue : ∀ val, assertion.value syn val = some (expr.orFirst.value val)) :
    expr.Agrees syn assertion := fun val => by rw [hvalue, h]

theorem RustOr.readAlike_of_agrees
    (hvalue : ∀ val, assertion.value syn val = some (expr.orFirst.value val))
    (h : expr.Agrees syn assertion) : expr.ReadAlike := fun val =>
  Option.some.inj ((hvalue val).symm.trans (h val))

/-- `!(expr)`, which the parser leaves to Rust. -/
def RustOr.negated (expr : RustOr) : RustOr := .single (.single (.not (.paren expr)))

theorem RustOr.meansRust_of {side : Side}
    (h : side = .assertion ∨ expr.refused side = true ∨ expr.ReadAlike) :
    expr.MeansRust syn side := by
  have hagrees : ∀ {assertion : AssertionWithoutId E T},
      side ≠ .assertion → expr.refused side = false →
      (∀ val, assertion.value syn val = some (expr.orFirst.value val)) →
        expr.Agrees syn assertion := by
    intro assertion hside hrefused hvalue
    rcases h with h | h | h
    · exact absurd h hside
    · rw [hrefused] at h
      cases h
    · exact agrees_of_readAlike h hvalue
  cases side with
  | assertion =>
    intro assertion hparse
    rw [extractAssertion_eq_ok_iff] at hparse
    obtain ⟨hunambiguous, hparse⟩ := hparse.of_assertion expr.print_ne_nil
    obtain ⟨_, hvalue, _⟩ := expr.readBack_nil hparse
    exact agrees_of_readAlike (readAlike_of_not_mixed (not_mixed_of_unambiguous hunambiguous))
      hvalue
  | rhsOnly =>
    intro tokens reference pledge hreference hparse
    obtain ⟨reference', mid, rhs, hreference', hrhs, rfl⟩ :=
      extractPledgeRhsOnly_eq_ok_iff.mp hparse
    rw [hreference] at hreference'
    cases hreference'
    obtain ⟨_, hvalue, hrefused⟩ := expr.readBack_nil hrhs
    exact hagrees (by decide) hrefused hvalue
  | lhs =>
    intro tokens reference pledge other hreference hparse
    obtain ⟨reference', mid, lhs, mid', mid'', rhs, hreference', hlhs, _, _, rfl⟩ :=
      extractPledge_eq_ok_iff.mp hparse
    rw [hreference] at hreference'
    cases hreference'
    obtain ⟨_, hvalue, hrefused⟩ := expr.readBack (.comma other.print) rfl rfl hlhs
    exact ⟨lhs, rfl, hagrees (by decide) hrefused hvalue⟩
  | rhs =>
    intro tokens reference pledge other hreference hparse
    obtain ⟨reference', mid, lhs, mid', mid'', rhs, hreference', hlhs, hcomma, hrhs, rfl⟩ :=
      extractPledge_eq_ok_iff.mp hparse
    rw [hreference] at hreference'
    cases hreference'
    obtain ⟨rfl, _, _⟩ := other.readBack (.comma expr.print) rfl rfl hlhs
    cases hcomma
    obtain ⟨_, hvalue, hrefused⟩ := expr.readBack_nil hrhs
    exact hagrees (by decide) hrefused hvalue

theorem RustOr.readAlike_of_meansRust {side : Side} (hsyn : ParsesOver syn expr.atoms)
    (hside : side ≠ .assertion) (hrefused : expr.refused side = false)
    (h : expr.MeansRust syn side) :
    expr.ReadAlike := by
  have hnegated : ParsesOver syn expr.negated.atoms := hsyn
  cases side with
  | assertion => exact absurd rfl hside
  | rhsOnly =>
    obtain ⟨rhs, hrhs⟩ := expr.accepted_nil hsyn hrefused
    have hreference : parseReference syn expr.print = .ok (none, expr.print) :=
      parseReference_none (expr.not_punct (by decide))
    have hagrees := h expr.print none ⟨none, none, rhs⟩ hreference
      (extractPledgeRhsOnly_eq_ok_iff.mpr ⟨_, _, _, hreference, hrhs, rfl⟩)
    exact readAlike_of_agrees (expr.readBack_nil hrhs).2.1 hagrees
  | lhs =>
    obtain ⟨lhs, hlhs⟩ := expr.accepted hsyn (.comma expr.negated.print) rfl rfl hrefused
    obtain ⟨rhs, hrhs⟩ := expr.negated.accepted_nil hnegated rfl
    have hreference := parseReference_sides syn expr expr.negated
    obtain ⟨_, heq, hagrees⟩ := h _ none ⟨none, some lhs, rhs⟩ expr.negated hreference
      (extractPledge_eq_ok_iff.mpr ⟨_, _, _, _, _, _, hreference, hlhs, rfl, hrhs, rfl⟩)
    cases heq
    exact readAlike_of_agrees (expr.readBack (.comma expr.negated.print) rfl rfl hlhs).2.1 hagrees
  | rhs =>
    obtain ⟨lhs, hlhs⟩ := expr.negated.accepted hnegated (.comma expr.print) rfl rfl rfl
    obtain ⟨rhs, hrhs⟩ := expr.accepted_nil hsyn hrefused
    have hreference := parseReference_sides syn expr.negated expr
    have hagrees := h _ none ⟨none, some lhs, rhs⟩ expr.negated hreference
      (extractPledge_eq_ok_iff.mpr ⟨_, _, _, _, _, _, hreference, hlhs, rfl, hrhs, rfl⟩)
    exact readAlike_of_agrees (expr.readBack_nil hrhs).2.1 hagrees

namespace Witness

/-- An atom that is a single name. -/
def opaqueName (name : String) (h : name ≠ "forall" ∧ name ≠ "exists") : OpaqueAtom where
  first := .ident name
  rest := []
  first_operand := .inl ⟨name, rfl, h⟩
  plain := by simp
  noImplies := rfl

/-- `a || b && c`. -/
def mixedExpr : RustOr :=
  .or (.single (.atom (opaqueName "a" (by decide))))
    (.single (.and (.atom (opaqueName "b" (by decide)))
      (.single (.atom (opaqueName "c" (by decide))))))

theorem tokenSyn_parsesOver (atoms : List TokenStream) : ParsesOver tokenSyn atoms := by
  intro expr _
  obtain ⟨token, htoken, hno⟩ := expr.endsOperand_print
  refine ⟨expr.print, ?_⟩
  have hand := hno '&' (.inl rfl)
  have hor := hno '|' (.inr (.inl rfl))
  have heq := hno '=' (.inr (.inr rfl))
  simp [tokenSyn, htoken, hand, hor, heq]

end Witness

end Prusti.Specs

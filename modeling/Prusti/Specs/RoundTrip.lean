/-
Printed assertions are read back, unless a parenthesised assertion stands in front of a
comma or an atom looks like an assertion of another form.
-/
import Prusti.Specs.Grammar
import Prusti.Specs.Printing

namespace Prusti.Specs

open Prusti.Lib Preparser

variable {E T : Type} {syn : Syn E T}

variable {operator terminator : String} {tokens : TokenStream} {lhs : ExpressionWithoutId E}

variable {rest last : TokenStream}

/-- What ends an operand: the end of the tokens, an operator of the assertions, or a
comma. -/
structure Ends (beforeComma : Bool) (rest : TokenStream) : Prop where
  ends : rest = [] ∨ endsRust "," rest = true
  comma : peekOperator "," rest = beforeComma

/-- What may follow an operand: nothing, another operand, or a comma. -/
inductive Follower : Bool → TokenStream → Prop
  | nil : Follower false []
  | and (rest : TokenStream) : Follower false (operatorTokens "&&" ++ rest)
  | implies (rest : TokenStream) : Follower false (operatorTokens "==>" ++ rest)
  | comma (rest : TokenStream) : Follower true (operatorTokens "," ++ rest)

theorem popUntil_eq {stop : TokenStream → Bool} {front : TokenStream}
    (hrest : rest = [] ∨ stop rest = true)
    (hno : ∀ back, back <:+ front → back ≠ [] → stop (back ++ rest) = false) :
    popUntil stop (front ++ rest) = (front, rest) := by
  induction front with
  | nil =>
    cases rest with
    | nil => rfl
    | cons token rest =>
      have hstop := hrest.resolve_left (List.cons_ne_nil _ _)
      rw [List.nil_append, popUntil, if_pos hstop]
  | cons token front ih =>
    have hhead := hno (token :: front) (List.suffix_refl _) (List.cons_ne_nil _ _)
    have htail := ih fun back hback => hno back (hback.trans (List.suffix_cons _ _))
    rw [List.cons_append] at hhead ⊢
    rw [popUntil, hhead, if_neg Bool.false_ne_true, htail]

theorem popUntil_stops (stop : TokenStream → Bool) (tokens : TokenStream) :
    (popUntil stop tokens).2 = [] ∨ stop (popUntil stop tokens).2 = true := by
  induction tokens with
  | nil => exact .inl rfl
  | cons token tokens ih =>
    rw [popUntil]
    split
    · next h => exact .inr h
    · exact ih

/-- What an operator that ends an expression is made of. -/
theorem operator_chars (h : operator ∈ "=>" :: separators) :
    operator.toList ≠ [] ∧ ∀ c ∈ operator.toList.dropLast, c = '&' ∨ c = '|' ∨ c = '=' := by
  have hall : ∀ operator ∈ "=>" :: separators, operator.toList ≠ [] ∧
      operator.toList.dropLast ⊆ ['&', '|', '='] := by decide
  refine ⟨(hall operator h).1, fun c hc => ?_⟩
  simpa using (hall operator h).2 hc

/-- An operator that is not in an expression does not begin in it either. -/
theorem peekOperator_back {back : TokenStream} (hends : EndsOperand tokens)
    (hoperator : operator ∈ "=>" :: separators) (hplain : containsOperator tokens operator = false)
    (hback : back <:+ tokens) (hne : back ≠ []) : peekOperator operator (back ++ rest) = false := by
  obtain ⟨hoperator, hinside⟩ := operator_chars hoperator
  rw [← Bool.not_eq_true]
  intro hpeek
  rcases peekOperator_append hpeek with h | ⟨rest', hrest', h⟩
  · rw [← Bool.not_eq_true, containsOperator_iff hoperator] at hplain
    rw [peekOperator_iff] at h
    exact hplain (h.isInfix.trans hback.isInfix)
  · obtain ⟨token, htoken, hlast⟩ := hends
    obtain ⟨front, rfl⟩ := hback
    rw [List.getLast?_append_of_ne_nil _ hne] at htoken
    have hmem : token ∈ (operatorTokens operator).dropLast := by
      rw [h, List.dropLast_append_of_ne_nil hrest', List.mem_append]
      exact .inl (List.mem_of_getLast? htoken)
    rw [operatorTokens, ← List.map_dropLast, List.mem_map] at hmem
    obtain ⟨c, hc, rfl⟩ := hmem
    exact hlast c (hinside c hc) rfl

/-- The operators that end a Rust expression. -/
def rustEnds (terminator : String) : List String := ["|=", "&&", "==>", terminator]

theorem endsRust_eq_false_iff :
    endsRust terminator tokens = false ↔
      ∀ operator ∈ rustEnds terminator, peekOperator operator tokens = false := by
  simp [endsRust, rustEnds, and_assoc]

/-- An expression with none of the operators that end one is read to its end. -/
theorem popUntil_plain (hends : EndsOperand tokens)
    (hterminator : rustEnds terminator ⊆ "=>" :: separators)
    (hplain : ∀ operator ∈ rustEnds terminator, containsOperator tokens operator = false)
    (hrest : rest = [] ∨ endsRust terminator rest = true) :
    popUntil (endsRust terminator) (tokens ++ rest) = (tokens, rest) := by
  refine popUntil_eq hrest fun back hback hne => endsRust_eq_false_iff.mpr ?_
  intro operator hmem
  exact peekOperator_back hends (hterminator hmem) (hplain operator hmem) hback hne

/-- What is read up to the end of such an expression. -/
theorem parseRustUntil_eq_ok_iff {tokens' : TokenStream}
    (hpop : popUntil (endsRust terminator) tokens' = (tokens, rest)) (hne : tokens ≠ []) :
    parseRustUntil syn terminator tokens' = .ok (lhs, last) ↔
      containsOperatorRecursive "==>" tokens = false ∧
        (∃ expr, syn.parseExpr tokens = .ok expr ∧ lhs = expression expr) ∧ last = rest := by
  rw [parseRustUntil, hpop]
  dsimp only
  split
  · next h => simp [h, errorNoImplies]
  · next h =>
      rw [if_neg (by simpa using hne)]
      simp only [bind_eq_ok_iff, Stop.callback_eq_ok_iff, pure_eq_ok_iff]
      constructor
      · rintro ⟨expr, hexpr, heq⟩
        cases heq
        exact ⟨by simpa using h, ⟨expr, hexpr, rfl⟩, rfl⟩
      · rintro ⟨_, ⟨expr, hexpr, rfl⟩, rfl⟩
        exact ⟨expr, hexpr, rfl⟩

/-- A Rust expression was read from the front of the tokens, up to what ends it. -/
theorem of_parseRustUntil (h : parseRustUntil syn "," tokens = .ok (lhs, rest)) :
    tokens = syn.toTokens lhs.expr ++ rest ∧ syn.toTokens lhs.expr ≠ [] ∧
      Ends (peekOperator "," rest) rest := by
  have happend := popUntil_append (endsRust ",") tokens
  have hstops := popUntil_stops (endsRust ",") tokens
  have hne : (popUntil (endsRust ",") tokens).1 ≠ [] := by
    intro hnil
    rw [parseRustUntil] at h
    dsimp only at h
    rw [hnil] at h
    cases h
  obtain ⟨_, ⟨expr, hexpr, rfl⟩, rfl⟩ := (parseRustUntil_eq_ok_iff rfl hne).mp h
  rw [expression, syn.toTokens_parseExpr hexpr]
  exact ⟨happend.symm, hne, hstops, rfl⟩

theorem peekKeyword_append (hne : tokens ≠ []) (keyword : String) (rest : TokenStream) :
    peekKeyword keyword (tokens ++ rest) = peekKeyword keyword tokens := by
  cases tokens with
  | nil => exact absurd rfl hne
  | cons token tokens => cases token <;> rfl

section Ends

variable {beforeComma : Bool} {rest : TokenStream}

/-- What follows a group decides whether it is part of a Rust expression. -/
theorem Ends.isPartOfRustExpr_cons (h : Ends beforeComma rest) (token : TokenTree) :
    isPartOfRustExpr (token :: rest) = beforeComma := by
  obtain ⟨hends, rfl⟩ := h
  cases hcomma : peekOperator "," rest with
  | true =>
    rw [peekOperator_iff] at hcomma
    obtain ⟨back, rfl⟩ := hcomma
    rfl
  | false =>
    rcases hends with rfl | hends
    · rfl
    · simp only [endsRust, hcomma, Bool.or_false, Bool.or_eq_true] at hends
      rcases hends with (hends | hends) | hends <;> simp [isPartOfRustExpr, hends]

theorem Ends.not_group (h : Ends beforeComma rest) (delimiter : Delimiter)
    (stream back : TokenStream) : rest ≠ .group delimiter stream :: back := by
  rintro rfl
  rcases h.ends with hends | hends
  · cases hends
  · cases hends

theorem Ends.entails (rest : TokenStream) : Ends false (operatorTokens "|=" ++ rest) :=
  ⟨.inr rfl, rfl⟩

theorem Follower.ends (h : Follower beforeComma rest) : Ends beforeComma rest := by
  cases h with
  | nil => exact ⟨.inl rfl, rfl⟩
  | and rest => exact ⟨.inr rfl, rfl⟩
  | implies rest => exact ⟨.inr rfl, rfl⟩
  | comma rest => exact ⟨.inr rfl, rfl⟩

theorem Follower.not_entails (h : Follower beforeComma rest) :
    consumeOperator "|=" rest = none := by
  cases h <;> rfl

/-- A group is taken for a parenthesised assertion unless a comma follows. -/
theorem Ends.primary_group (h : Ends beforeComma rest) (stream : TokenStream) :
    ((peekGroup .parenthesis (.group .parenthesis stream :: rest) &&
      !isPartOfRustExpr (.group .parenthesis stream :: rest)) ||
        peekKeyword "forall" (.group .parenthesis stream :: rest) ||
        peekKeyword "exists" (.group .parenthesis stream :: rest)) = !beforeComma := by
  rw [h.isPartOfRustExpr_cons]
  cases beforeComma <;> rfl

end Ends

namespace Atom

variable (atom : Atom syn) {beforeComma : Bool} {rest : TokenStream}

theorem endsOperand : EndsOperand atom.tokens := syn.endsOperand_parseExpr atom.parses

theorem tokens_ne_nil : atom.tokens ≠ [] := atom.endsOperand.ne_nil

theorem peekOperator_back (hmem : operator ∈ separators) {back rest : TokenStream}
    (hback : back <:+ atom.tokens) (hne : back ≠ []) :
    peekOperator operator (back ++ rest) = false :=
  Specs.peekOperator_back atom.endsOperand (List.mem_cons_of_mem _ hmem) (atom.plain operator hmem)
    hback hne

theorem parseRustUntil_iff (h : Ends beforeComma rest) {last : TokenStream} :
    parseRustUntil syn "," (atom.tokens ++ rest) = .ok (lhs, last) ↔
      containsOperatorRecursive "==>" atom.tokens = false ∧ lhs = expression atom.expr ∧
        last = rest := by
  have hsub : rustEnds "," ⊆ separators := by decide
  rw [parseRustUntil_eq_ok_iff (popUntil_plain atom.endsOperand
    (List.subset_cons_of_subset _ hsub) (fun operator hmem => atom.plain operator (hsub hmem))
    h.ends) atom.tokens_ne_nil]
  simp [atom.parses]

/-- An atom that the parser takes for a Rust expression. -/
theorem not_primary (h : ¬ NotRust beforeComma atom.tokens) (hrest : Ends beforeComma rest) :
    ((peekGroup .parenthesis (atom.tokens ++ rest) && !isPartOfRustExpr (atom.tokens ++ rest)) ||
      peekKeyword "forall" (atom.tokens ++ rest) ||
      peekKeyword "exists" (atom.tokens ++ rest)) = false := by
  simp only [NotRust, not_or, not_and, not_exists, Bool.not_eq_true] at h
  obtain ⟨hforall, hexists, hgroup⟩ := h
  rw [peekKeyword_append atom.tokens_ne_nil, peekKeyword_append atom.tokens_ne_nil, hforall,
    hexists, Bool.or_false, Bool.or_false]
  obtain ⟨token, tokens, htokens⟩ := List.exists_cons_of_ne_nil atom.tokens_ne_nil
  rw [htokens] at hgroup ⊢
  by_cases htail : tokens = []
  · subst htail
    rw [List.singleton_append, hrest.isPartOfRustExpr_cons]
    cases beforeComma with
    | true => exact Bool.and_false _
    | false =>
      cases token with
      | group delimiter stream =>
        have hdelimiter : delimiter ≠ .parenthesis := fun heq => hgroup rfl stream (heq ▸ rfl)
        simp [peekGroup, hdelimiter.symm]
      | _ => rfl
  · have hback : tokens <:+ atom.tokens := htokens ▸ List.suffix_cons token tokens
    have hpeek : ∀ operator ∈ separators, peekOperator operator (tokens ++ rest) = false :=
      fun operator hmem => atom.peekOperator_back hmem hback htail
    have hpart : isPartOfRustExpr (token :: tokens ++ rest) = true := by
      rw [List.cons_append, isPartOfRustExpr, hpeek _ (by decide), hpeek _ (by decide),
        hpeek _ (by decide)]
      simp [htail]
    rw [hpart, Bool.not_true, Bool.and_false]

end Atom

theorem parseTriggers_print (triggers : Option (PrintedTriggers syn)) :
    parseTriggers syn (PrintedTriggers.print triggers) =
      .ok (PrintedTriggers.triggerSet triggers) := by
  cases triggers with
  | none => rfl
  | some triggers =>
    have harray : triggersOfArray (triggers.triggers.map some) =
        .ok (PrintedTriggers.triggerSet (some triggers)) := by
      rw [PrintedTriggers.triggerSet]
      generalize triggers.triggers = items
      induction items with
      | nil => rfl
      | cons elems items ih =>
        rw [List.map_cons, triggersOfArray, ih]
        rfl
    have hcomma : consumeOperator "," (PrintedTriggers.print (some triggers)) =
        some (.ident "triggers" :: (operatorTokens "=" ++ triggers.tokens)) := rfl
    have hkeyword : consumeKeyword "triggers"
        (.ident "triggers" :: (operatorTokens "=" ++ triggers.tokens)) =
          some (operatorTokens "=" ++ triggers.tokens) := rfl
    have hequals : consumeOperator "=" (operatorTokens "=" ++ triggers.tokens) =
        some triggers.tokens := rfl
    simp only [parseTriggers, hcomma, hkeyword, hequals, triggers.parses]
    exact harray

theorem follower_triggers (triggers : Option (PrintedTriggers syn)) :
    Follower triggers.isSome (PrintedTriggers.print triggers) := by
  cases triggers with
  | none => exact .nil
  | some triggers => exact .comma _

namespace BoundVars

variable (vars : BoundVars syn) (rest : TokenStream)

theorem consume_print : consumeOperator "|" (vars.print ++ rest) =
    some (vars.tokens ++ (operatorTokens "|" ++ rest)) := by
  rw [consumeOperator_eq_some_iff, print, List.append_assoc, List.append_assoc]

theorem createStreamUntil_print :
    createStreamUntil "|" (vars.tokens ++ (operatorTokens "|" ++ rest)) =
      (vars.tokens, operatorTokens "|" ++ rest) := by
  refine popUntil_eq (.inr rfl) ?_
  intro back hback hne
  rw [← Bool.not_eq_true]
  intro hpeek
  rcases peekOperator_append hpeek with h | ⟨rest', hrest', h⟩
  · have hplain := vars.plain
    rw [← Bool.not_eq_true, containsOperator_iff (by decide)] at hplain
    rw [peekOperator_iff] at h
    exact hplain (h.isInfix.trans hback.isInfix)
  · have hlength := congrArg List.length h
    have hback := List.length_pos_iff.mpr hne
    have hrest := List.length_pos_iff.mpr hrest'
    have hone : (operatorTokens "|").length = 1 := rfl
    rw [hone, List.length_append] at hlength
    omega

theorem consume_bar : consumeOperator "|" (operatorTokens "|" ++ rest) = some rest :=
  consumeOperator_eq_some_iff.mpr rfl

theorem parseQuantifierVars_print :
    parseQuantifierVars syn (vars.print ++ rest) = .ok (vars.vars, rest) := by
  rw [parseQuantifierVars, vars.consume_print]
  simp [vars.createStreamUntil_print, vars.nonempty, vars.parses, consume_bar]

theorem parseEntailmentVars_print (vars : Option (BoundVars syn)) (delimiter : Delimiter)
    (stream rest : TokenStream) :
    parseEntailmentVars syn (printOption vars ++ .group delimiter stream :: rest) =
      .ok (args vars, .group delimiter stream :: rest) := by
  cases vars with
  | none => rfl
  | some vars =>
    rw [parseEntailmentVars, printOption, vars.consume_print]
    simp [vars.createStreamUntil_print, vars.parses, consume_bar, args]

end BoundVars

@[simp] theorem flatten_ofConjuncts (conjuncts : List (AssertionWithoutId E T)) :
    (ofConjuncts conjuncts).flatten = Assertion.flattenAll conjuncts := by
  unfold ofConjuncts
  split
  · simp [Assertion.flattenAll]
  · rw [Assertion.flatten]

theorem flatten_quantifier (exists_ : Bool) (vars : List (Arg T)) (triggers : TriggerSet Unit E)
    (body : AssertionWithoutId E T) :
    (quantifier exists_ vars triggers body).flatten =
      [quantifier exists_ vars triggers (.and body.flatten)] := by
  cases exists_ <;> rw [quantifier, quantifier] <;> exact Assertion.flatten.eq_def _

theorem Primary.print_ne_nil (conjunct : Primary syn) : conjunct.print ≠ [] := by
  cases conjunct with
  | expr atom => exact atom.tokens_ne_nil
  | paren body => exact List.cons_ne_nil _ _
  | quantifier exists_ vars body triggers => exact List.cons_ne_nil _ _
  | entailment closure vars clauses =>
    exact List.append_ne_nil_of_left_ne_nil closure.tokens_ne_nil _

theorem Conjunction.print_ne_nil (conjuncts : Conjunction syn) : conjuncts.print ≠ [] := by
  cases conjuncts with
  | single conjunct => exact conjunct.print_ne_nil
  | and conjunct rest =>
    rw [print, List.append_assoc]
    exact List.append_ne_nil_of_left_ne_nil conjunct.print_ne_nil _

theorem Formula.print_ne_nil (formula : Formula syn) : formula.print ≠ [] := by
  cases formula with
  | conj conjuncts => exact conjuncts.print_ne_nil
  | implies lhs rhs =>
    rw [print, List.append_assoc]
    exact List.append_ne_nil_of_left_ne_nil lhs.print_ne_nil _

theorem Primary.print_entailment (closure : Atom syn) (vars : Option (BoundVars syn))
    (clauses : Clauses syn) (rest : TokenStream) :
    (entailment closure vars clauses).print ++ rest =
      closure.tokens ++ (operatorTokens "|=" ++ (BoundVars.printOption vars ++
        .group .bracket (clauses.print true) :: rest)) := by
  simp [print]

mutual

theorem Primary.parses (conjunct : Primary syn) {beforeComma : Bool} {rest : TokenStream}
    (hread : conjunct.Readable beforeComma) (hrest : Follower beforeComma rest) :
    Parses syn .entailment (conjunct.print ++ rest) conjunct.assertion rest := by
  match conjunct with
  | .expr atom =>
    exact .expr (atom.not_primary hread.2 hrest.ends)
      ((atom.parseRustUntil_iff hrest.ends).mpr ⟨hread.1, rfl, rfl⟩) hrest.not_entails
  | .paren body =>
    obtain ⟨rfl, hunambiguous, hbody⟩ := hread
    have hparse := body.parses hbody .nil rfl rfl
    rw [List.append_nil] at hparse
    exact .primary (hrest.ends.primary_group _) (.paren (consumeGroup_eq_some_iff.mpr rfl)
      (.assertion body.print_ne_nil hunambiguous hparse))
  | .quantifier exists_ vars body triggers =>
    have hparse := body.parses hread (follower_triggers triggers)
      (by cases triggers <;> rfl) (by cases triggers <;> rfl)
    have hquantifier : Parses syn (.quantifierRhs exists_) _ _ [] := .quantifierRhs
      (vars.parseQuantifierVars_print (body.print ++ PrintedTriggers.print triggers))
      hparse (parseTriggers_print triggers)
    rw [← List.append_assoc] at hquantifier
    cases exists_ with
    | false => exact .primary rfl (.forAll rfl rfl rfl hquantifier)
    | true => exact .primary rfl (.exist rfl rfl rfl rfl hquantifier)
  | .entailment closure vars clauses =>
    rw [Primary.print_entailment]
    exact .entailment (closure.not_primary hread.1.2 (.entails _))
      ((closure.parseRustUntil_iff (.entails _)).mpr ⟨hread.1.1, rfl, rfl⟩)
      (consumeOperator_eq_some_iff.mpr rfl) (BoundVars.parseEntailmentVars_print vars _ _ _)
      (consumeGroup_eq_some_iff.mpr rfl) (clauses.parses hread.2 _ _ true [] [])

theorem Clauses.parses (clauses : Clauses syn) (hread : clauses.Readable)
    (lhs : ExpressionWithoutId E) (vars : List (Arg T)) (first : Bool)
    (pres posts : List (AssertionWithoutId E T)) :
    Parses syn (.entailmentRhs lhs vars first pres posts) (clauses.print first)
      (Preparser.entailment syn lhs vars (pres ++ clauses.assertions false)
        (posts ++ clauses.assertions true)) [] := by
  match clauses with
  | .nil =>
    rw [Clauses.assertions, Clauses.assertions, List.append_nil, List.append_nil]
    exact .entailmentDone
  | .cons ensures body clauses =>
    obtain ⟨⟨hunambiguous, hbody⟩, hread⟩ := hread
    have hparse := body.parses hbody .nil rfl rfl
    rw [List.append_nil] at hparse
    have hside := Parses.assertion body.print_ne_nil hunambiguous hparse
    have hne : ∀ tokens : TokenStream, (if first then [] else operatorTokens ",") ++
        .ident (if ensures then "ensures" else "requires") :: tokens ≠ [] := by simp
    cases ensures with
    | false =>
      have hrest := clauses.parses hread lhs vars false (pres ++ [body.assertion]) posts
      rw [List.append_assoc] at hrest
      exact .requires (hne _) (by cases first <;> rfl) rfl rfl hside hrest
    | true =>
      have hrest := clauses.parses hread lhs vars false pres (posts ++ [body.assertion])
      rw [List.append_assoc] at hrest
      exact .ensures (hne _) (by cases first <;> rfl) rfl rfl rfl hside hrest

/-- The first conjunct is read, and the loop finds the others. -/
theorem Conjunction.parses_loop (conjuncts : Conjunction syn) {beforeComma : Bool}
    {rest : TokenStream} (hread : conjuncts.Readable beforeComma)
    (hrest : Follower beforeComma rest) (hdone : consumeOperator "&&" rest = none)
    (before : List (AssertionWithoutId E T)) :
    ∃ assertion mid, Parses syn .entailment (conjuncts.print ++ rest) assertion mid ∧
      Parses syn (.conjuncts (before ++ [assertion])) mid
        (.and (before ++ conjuncts.assertions)) rest := by
  match conjuncts with
  | .single conjunct => exact ⟨_, rest, conjunct.parses hread hrest, .done hdone⟩
  | .and conjunct conjuncts =>
    obtain ⟨assertion, mid, hfirst, hloop⟩ :=
      conjuncts.parses_loop hread.2 hrest hdone (before ++ [conjunct.assertion])
    rw [List.append_assoc before _ conjuncts.assertions] at hloop
    refine ⟨_, _, ?_, .next (consumeOperator_eq_some_iff.mpr rfl) hfirst hloop⟩
    rw [Conjunction.print, List.append_assoc, List.append_assoc]
    exact conjunct.parses hread.1 (.and _)

theorem Conjunction.parses (conjuncts : Conjunction syn) {beforeComma : Bool}
    {rest : TokenStream} (hread : conjuncts.Readable beforeComma)
    (hrest : Follower beforeComma rest) (hdone : consumeOperator "&&" rest = none) :
    Parses syn .conjunction (conjuncts.print ++ rest) (ofConjuncts conjuncts.assertions)
      rest := by
  obtain ⟨assertion, mid, hfirst, hloop⟩ := conjuncts.parses_loop hread hrest hdone []
  exact .conjunction hfirst hloop

/-- What is printed is read, if it is readable. -/
theorem Formula.parses (formula : Formula syn) {beforeComma : Bool} {rest : TokenStream}
    (hread : formula.Readable beforeComma) (hrest : Follower beforeComma rest)
    (hdone : consumeOperator "&&" rest = none) (hdone' : consumeOperator "==>" rest = none) :
    Parses syn .prusti (formula.print ++ rest) formula.assertion rest := by
  match formula with
  | .conj conjuncts => exact .prusti (conjuncts.parses hread hrest hdone) hdone'
  | .implies lhs rhs =>
    have hlhs := lhs.parses hread.1 (.implies (rhs.print ++ rest)) rfl
    rw [← List.append_assoc, ← List.append_assoc] at hlhs
    exact .implies hlhs (consumeOperator_eq_some_iff.mpr rfl)
      (rhs.parses hread.2 hrest hdone hdone')

end

/-- There are conjuncts, and the expressions among them have no more tokens. -/
def FitsIn (syn : Syn E T) (tokens : TokenStream) (items : List (AssertionWithoutId E T)) : Prop :=
  items ≠ [] ∧ ∀ expr, .expr expr ∈ items →
    TokenTree.streamSize (syn.toTokens expr.expr) ≤ TokenTree.streamSize tokens

mutual

theorem Primary.fits (conjunct : Primary syn) :
    FitsIn syn conjunct.print conjunct.assertion.flatten := by
  match conjunct with
  | .expr atom =>
    rw [Primary.assertion, Assertion.flatten]
    refine ⟨List.cons_ne_nil _ _, fun expr hmem => ?_⟩
    rw [List.mem_singleton] at hmem
    cases hmem
    exact (congrArg TokenTree.streamSize (syn.toTokens_parseExpr atom.parses)).le
  | .paren body =>
    obtain ⟨hne, hsize⟩ := body.fits
    exact ⟨hne, fun expr hmem => (hsize expr hmem).trans (by simp [Primary.print])⟩
  | .quantifier exists_ vars body triggers =>
    rw [Primary.assertion, flatten_quantifier]
    cases exists_ <;> simp [FitsIn, quantifier]
  | .entailment closure vars clauses =>
    simp [FitsIn, Primary.assertion, entailment, Assertion.flatten]

theorem Conjunction.fits (conjuncts : Conjunction syn) :
    FitsIn syn conjuncts.print (Assertion.flattenAll conjuncts.assertions) := by
  match conjuncts with
  | .single conjunct =>
    rw [Conjunction.assertions, Assertion.flattenAll_singleton]
    exact conjunct.fits
  | .and conjunct conjuncts =>
    obtain ⟨hne, hsize⟩ := conjunct.fits
    obtain ⟨_, hsize'⟩ := conjuncts.fits
    rw [Conjunction.assertions, Assertion.flattenAll]
    refine ⟨List.append_ne_nil_of_left_ne_nil hne _, fun expr hmem => ?_⟩
    simp only [Conjunction.print, TokenTree.streamSize_append]
    rcases List.mem_append.mp hmem with hmem | hmem
    · exact (hsize expr hmem).trans (by omega)
    · exact (hsize' expr hmem).trans (by omega)

theorem Formula.fits (formula : Formula syn) :
    FitsIn syn formula.print formula.assertion.flatten := by
  match formula with
  | .conj conjuncts =>
    rw [Formula.assertion, flatten_ofConjuncts]
    exact conjuncts.fits
  | .implies lhs rhs => simp [FitsIn, Formula.assertion, Assertion.flatten]

end

/-- Among the conjuncts is an expression that the parser never makes, since it takes its
tokens for something else. -/
inductive Misread (syn : Syn E T) : Bool → List (AssertionWithoutId E T) → Prop
  | expr {beforeComma expr items}
      (h : NotRust (beforeComma && items.isEmpty) (syn.toTokens expr.expr)) :
      Misread syn beforeComma (.expr expr :: items)
  | closure {beforeComma closure binders pres posts items}
      (h : NotRust false (syn.toTokens closure.expr)) :
      Misread syn beforeComma (.specEntailment closure binders pres posts :: items)
  | lhs {beforeComma lhs rhs items} (h : Misread syn false lhs) :
      Misread syn beforeComma (.implies (.and lhs) rhs :: items)
  | rhs {beforeComma lhs rhs items} (h : Misread syn (beforeComma && items.isEmpty) rhs) :
      Misread syn beforeComma (.implies lhs (.and rhs) :: items)
  | tail {beforeComma item items} (h : Misread syn beforeComma items) :
      Misread syn beforeComma (item :: items)

theorem NotRust.weaken {beforeComma : Bool} (h : NotRust beforeComma tokens) :
    NotRust false tokens :=
  h.imp_right fun h => h.imp_right fun h => ⟨rfl, h.2⟩

namespace Misread

variable {beforeComma : Bool} {items items' : List (AssertionWithoutId E T)}

theorem weaken (h : Misread syn beforeComma items) : Misread syn false items := by
  induction h with
  | expr h => exact .expr h.weaken
  | closure h => exact .closure h
  | lhs h => exact .lhs h
  | rhs _ ih => exact .rhs ih
  | tail _ ih => exact .tail ih

theorem append_left (h : Misread syn beforeComma items') :
    Misread syn beforeComma (items ++ items') := by
  induction items with
  | nil => exact h
  | cons item items ih => exact .tail ih

theorem append_right (h : Misread syn false items) (hne : items' ≠ []) :
    Misread syn beforeComma (items ++ items') := by
  have hempty : ∀ items : List (AssertionWithoutId E T), (items ++ items').isEmpty = false := by
    simp [hne]
  induction items with
  | nil => cases h
  | cons item items ih =>
    rw [List.cons_append]
    cases h with
    | expr h => exact .expr (by rwa [hempty, Bool.and_false])
    | closure h => exact .closure h
    | lhs h => exact .lhs h
    | rhs h => exact .rhs (by rwa [hempty, Bool.and_false])
    | tail h => exact .tail (ih h)

theorem of_append (h : Misread syn beforeComma (items ++ items')) :
    Misread syn false items ∨ Misread syn beforeComma items' := by
  induction items with
  | nil => exact .inr h
  | cons item items ih =>
    rw [List.cons_append] at h
    cases h with
    | expr h => exact .inl (.expr h.weaken)
    | closure h => exact .inl (.closure h)
    | lhs h => exact .inl (.lhs h)
    | rhs h => exact .inl (.rhs h.weaken)
    | tail h => exact (ih h).imp_left .tail

end Misread

/-- What the collected conjuncts and the closure of an entailment have to do with the
expressions that the parser never makes. -/
def NotYetMisread (syn : Syn E T) (tokens : TokenStream) : Goal E T → Prop
  | .conjuncts before =>
    ¬ Misread syn (peekOperator "," tokens) (Assertion.flattenAll before)
  | .entailmentRhs lhs .. => ¬ NotRust false (syn.toTokens lhs.expr)
  | _ => True

theorem not_notRust
    (hprimary : startsPrimary tokens = false)
    (hlhs : parseRustUntil syn "," tokens = .ok (lhs, rest)) :
    ¬ NotRust (peekOperator "," rest) (syn.toTokens lhs.expr) := by
  obtain ⟨rfl, hne, hends⟩ := of_parseRustUntil hlhs
  simp only [Bool.or_eq_false_iff, peekKeyword_append hne] at hprimary
  rintro (h | h | ⟨hcomma, stream, h⟩)
  · rw [h] at hprimary
    cases hprimary.1.2
  · rw [h] at hprimary
    cases hprimary.2
  · have hgroup := hends.primary_group stream
    rw [h, List.singleton_append] at hprimary
    simp [hcomma, hprimary, peekKeyword] at hgroup

/-- The parser makes no such expression. -/
theorem not_misread {goal : Goal E T} {assertion : AssertionWithoutId E T}
    (h : Parses syn goal tokens assertion last) (hgoal : NotYetMisread syn tokens goal) :
    ¬ Misread syn (peekOperator "," last) assertion.flatten := by
  induction h with
  | empty => nofun
  | assertion _ _ _ ih => exact ih trivial
  | prusti _ _ ih => exact ih trivial
  | implies _ hrest _ ih ih' =>
    rw [consumeOperator_eq_some_iff] at hrest
    subst hrest
    rw [Assertion.flatten]
    intro h
    cases h with
    | lhs h => exact ih trivial h
    | rhs h => exact ih' trivial (by simpa using h)
    | tail h => cases h
  | conjunction _ _ ih ih' =>
    rw [flatten_ofConjuncts]
    refine ih' ?_
    rw [NotYetMisread, Assertion.flattenAll_singleton]
    exact ih trivial
  | done => exact hgoal
  | next hrest _ _ ih ih' =>
    rw [consumeOperator_eq_some_iff] at hrest
    subst hrest
    refine ih' fun h => ?_
    rw [Assertion.flattenAll_append, Assertion.flattenAll_singleton] at h
    exact h.of_append.elim hgoal (ih trivial)
  | primary _ _ ih => exact ih trivial
  | expr hprimary hlhs _ =>
    rw [Assertion.flatten]
    intro h
    cases h with
    | expr h => exact not_notRust hprimary hlhs (by simpa using h)
    | tail h => cases h
  | entailment hprimary hlhs hrest _ _ _ ih =>
    rw [consumeOperator_eq_some_iff] at hrest
    subst hrest
    exact fun h => ih (not_notRust hprimary hlhs) h.weaken
  | entailmentDone =>
    rw [entailment, Assertion.flatten]
    intro h
    cases h with
    | closure h => exact hgoal h
    | tail h => cases h
  | requires _ _ _ _ _ _ _ ih => exact ih hgoal
  | ensures _ _ _ _ _ _ _ _ ih => exact ih hgoal
  | paren _ _ ih => exact fun h => ih trivial h.weaken
  | forAll _ _ _ _ ih => exact fun h => ih trivial h.weaken
  | exist _ _ _ _ _ ih => exact fun h => ih trivial h.weaken
  | @quantifierRhs exists_ =>
    rw [flatten_quantifier]
    intro h
    cases exists_ <;> nomatch h

/-- Neither list is the beginning of the other one. -/
def Differ (read printed : List (AssertionWithoutId E T)) : Prop :=
  ¬ read <+: printed ∧ ¬ printed <+: read

/-- The same conjuncts were found and the assertion was readable, or others were found. -/
def Read (readable : Prop) (read printed : List (AssertionWithoutId E T)) : Prop :=
  readable ∧ read = printed ∨ Differ read printed

/-- The parser goes on with none of the operators it knows. -/
def Stuck (last : TokenStream) : Prop :=
  ∀ operator ∈ ["&&", "==>", ","], peekOperator operator last = false

/-- What the parser made of a printed assertion: either it makes none of the expressions in
it, and may have stopped early, or it stopped where the print ends, with the conjuncts that
were printed only if the assertion was readable. -/
structure ReadBack (syn : Syn E T) (beforeComma : Bool) (readable : Prop)
    (rest last : TokenStream) (read printed : List (AssertionWithoutId E T)) : Prop where
  stops : last = rest ∨ Stuck last
  items : Misread syn beforeComma printed ∨ last = rest ∧ Read readable read printed

namespace Read

variable {readable readable' : Prop} {read read' printed printed' : List (AssertionWithoutId E T)}

theorem of_eq (h : Read readable read printed) (heq : read = printed) : readable :=
  h.elim And.left fun h => absurd (heq ▸ List.prefix_refl read) h.1

theorem append (h : Read readable read printed) (h' : Read readable' read' printed') :
    Read (readable ∧ readable') (read ++ read') (printed ++ printed') := by
  rcases h with ⟨h, rfl⟩ | ⟨h, h''⟩
  · rcases h' with ⟨h', rfl⟩ | ⟨h', h''⟩
    · exact .inl ⟨⟨h, h'⟩, rfl⟩
    · exact .inr (by simpa [Differ, List.prefix_append_right_inj] using ⟨h', h''⟩)
  · have hboth : ∀ {front front' back back' : List (AssertionWithoutId E T)},
        front ++ back <+: front' ++ back' → front <+: front' ∨ front' <+: front := fun hprefix =>
      List.prefix_or_prefix_of_prefix ((List.prefix_append _ _).trans hprefix)
        (List.prefix_append _ _)
    exact .inr ⟨fun hprefix => (hboth hprefix).elim h h'',
      fun hprefix => (hboth hprefix).elim h'' h⟩

theorem singleton {item item' : AssertionWithoutId E T} (h : item = item' → readable) :
    Read readable [item] [item'] := by
  by_cases heq : item = item'
  · exact .inl ⟨h heq, heq ▸ rfl⟩
  · exact .inr (by simp [Differ, heq, Ne.symm heq])

end Read

section ReadBack

variable {beforeComma : Bool} {readable readable' : Prop} {rest rest' last : TokenStream}
  {read read' printed printed' : List (AssertionWithoutId E T)}

theorem Stuck.consume (h : Stuck last) (hmem : operator ∈ ["&&", "==>", ","]) :
    consumeOperator operator last = none := by
  rw [consumeOperator, h operator hmem]
  exact if_neg Bool.false_ne_true

theorem Stuck.entails (rest : TokenStream) : Stuck (operatorTokens "|=" ++ rest) := by
  intro operator hmem
  simp only [List.mem_cons, List.not_mem_nil, or_false] at hmem
  rcases hmem with rfl | rfl | rfl <;> rfl

theorem ReadBack.append (h : ReadBack syn false readable rest' rest' read printed)
    (h' : ReadBack syn beforeComma readable' rest last read' printed') (hne : printed' ≠ []) :
    ReadBack syn beforeComma (readable ∧ readable') rest last (read ++ read')
      (printed ++ printed') where
  stops := h'.stops
  items := by
    rcases h.items with h | ⟨_, h⟩
    · exact .inl (h.append_right hne)
    · exact h'.items.imp .append_left fun h' => ⟨h'.1, h.append h'.2⟩

theorem ReadBack.of_eq (h : ReadBack syn beforeComma readable rest last read printed)
    (hends : Ends beforeComma rest) (hread : ¬ Misread syn (peekOperator "," last) read)
    (heq : read = printed) : readable ∧ last = rest := by
  rcases h.items with hmisread | ⟨hlast, hitems⟩
  · rw [heq] at hread
    rcases h.stops with rfl | hstuck
    · rw [hends.comma] at hread
      exact absurd hmisread hread
    · rw [hstuck "," (by decide)] at hread
      exact absurd hmisread.weaken hread
  · exact ⟨hitems.of_eq heq, hlast⟩

end ReadBack

/-- Where the parser stops that takes an atom for something else. -/
theorem Atom.last_of_notRust (atom : Atom syn) {beforeComma : Bool}
    {assertion : AssertionWithoutId E T} (hrest : Ends beforeComma rest)
    (hno : NotRust beforeComma atom.tokens)
    (h : Parses syn .entailment (atom.tokens ++ rest) assertion last) :
    last = rest ∨ Stuck last := by
  have hkeyword : ∀ name tokens, atom.tokens = .ident name :: tokens →
      Parses syn .primary (atom.tokens ++ rest) assertion last → last = rest ∨ Stuck last := by
    intro name tokens htokens h
    rw [htokens, List.cons_append] at h
    obtain ⟨stream, hgroup⟩ := h.of_peekKeyword
    cases tokens with
    | nil => exact absurd hgroup (hrest.not_group _ _ _)
    | cons token back =>
      rw [List.cons_append, List.cons.injEq] at hgroup
      obtain ⟨rfl, rfl⟩ := hgroup
      by_cases hback : back = []
      · exact .inl (hback ▸ rfl)
      · have hsuffix : back <:+ atom.tokens := htokens ▸ ⟨[_, _], rfl⟩
        have hsub : ["&&", "==>", ","] ⊆ separators := by decide
        exact .inr fun operator hmem => atom.peekOperator_back (hsub hmem) hsuffix hback
  have hident : ∀ {keyword}, peekKeyword keyword atom.tokens = true →
      ∃ name tokens, atom.tokens = .ident name :: tokens := by
    intro keyword hpeek
    rcases htokens : atom.tokens with _ | ⟨token, tokens⟩
    · exact absurd htokens atom.tokens_ne_nil
    · rw [htokens] at hpeek
      cases token with
      | ident name => exact ⟨name, tokens, rfl⟩
      | _ => cases hpeek
  rcases hno with hforall | hexists | ⟨rfl, stream, hstream⟩
  · obtain ⟨name, tokens, htokens⟩ := hident hforall
    exact hkeyword name tokens htokens
      (h.of_primary (by simp [peekKeyword_append atom.tokens_ne_nil, hforall]))
  · obtain ⟨name, tokens, htokens⟩ := hident hexists
    exact hkeyword name tokens htokens
      (h.of_primary (by simp [peekKeyword_append atom.tokens_ne_nil, hexists]))
  · rw [hstream] at h
    exact .inl (h.of_primary (hrest.primary_group stream)).of_group.1

/-- The first conjunct and what the loop finds after it are the conjunction. -/
theorem Conjunction.readBack_of_loop {conjuncts : Conjunction syn} {beforeComma : Bool}
    {assertion : AssertionWithoutId E T}
    (hloop : ∀ {mid conjunct result},
      Parses syn .entailment (conjuncts.print ++ rest) conjunct mid →
      Parses syn (.conjuncts ([] ++ [conjunct])) mid (.and result) last →
      ∃ read, result = [] ++ conjunct :: read ∧
        ReadBack syn beforeComma (conjuncts.Readable beforeComma) rest last
          (Assertion.flattenAll (conjunct :: read)) (Assertion.flattenAll conjuncts.assertions))
    (h : Parses syn .conjunction (conjuncts.print ++ rest) assertion last) :
    ReadBack syn beforeComma (conjuncts.Readable beforeComma) rest last assertion.flatten
      (Assertion.flattenAll conjuncts.assertions) := by
  obtain ⟨conjunct, mid, result, hfirst, hrest, rfl⟩ := h.of_conjunction
  obtain ⟨read, rfl, hread⟩ := hloop hfirst hrest
  rw [flatten_ofConjuncts]
  exact hread

mutual

theorem Primary.readBack (conjunct : Primary syn) {beforeComma : Bool}
    {rest last : TokenStream} {assertion : AssertionWithoutId E T}
    (hrest : Follower beforeComma rest)
    (h : Parses syn .entailment (conjunct.print ++ rest) assertion last) :
    ReadBack syn beforeComma (conjunct.Readable beforeComma) rest last assertion.flatten
      conjunct.assertion.flatten := by
  match conjunct with
  | .expr atom =>
    by_cases hno : NotRust beforeComma atom.tokens
    · refine ⟨atom.last_of_notRust hrest.ends hno h, .inl ?_⟩
      rw [Primary.assertion, Assertion.flatten]
      refine .expr ?_
      rwa [List.isEmpty_nil, Bool.and_true, expression, syn.toTokens_parseExpr atom.parses]
    · obtain ⟨lhs, mid, hlhs, hmid, _⟩ := h.of_not_primary (atom.not_primary hno hrest.ends)
      obtain ⟨hrec, rfl, rfl⟩ := (atom.parseRustUntil_iff hrest.ends).mp hlhs
      obtain ⟨rfl, rfl⟩ := hmid hrest.not_entails
      exact ⟨.inl rfl, .inr ⟨rfl, .inl ⟨⟨hrec, hno⟩, rfl⟩⟩⟩
  | .paren body =>
    cases beforeComma with
    | false =>
      obtain ⟨rfl, hbody⟩ := (h.of_primary (hrest.ends.primary_group _)).of_group
      obtain ⟨hunambiguous, hbody⟩ := hbody.of_assertion body.print_ne_nil
      rw [← List.append_nil body.print] at hbody
      refine ⟨.inl rfl, (body.readBack .nil rfl rfl hbody).items.imp id fun hread => ?_⟩
      exact ⟨rfl, hread.2.imp_left fun hread => ⟨⟨rfl, hunambiguous, hread.1⟩, hread.2⟩⟩
    | true =>
      obtain ⟨lhs, mid, hlhs, hmid, _⟩ := h.of_not_primary (hrest.ends.primary_group _)
      have hpop : popUntil (endsRust ",") (.group .parenthesis body.print :: rest) =
          ([.group .parenthesis body.print], rest) := by
        cases hrest
        rfl
      obtain ⟨_, ⟨expr, hexpr, rfl⟩, rfl⟩ :=
        (parseRustUntil_eq_ok_iff hpop (List.cons_ne_nil _ _)).mp hlhs
      obtain ⟨rfl, rfl⟩ := hmid hrest.not_entails
      obtain ⟨hne, hsize⟩ := body.fits
      refine ⟨.inl rfl, .inr ⟨rfl, .inr ?_⟩⟩
      obtain ⟨item, items, hitems⟩ := List.exists_cons_of_ne_nil hne
      have hitem : .expr (expression expr) ≠ item := by
        rintro rfl
        have hexprs := hsize (expression expr) (hitems ▸ List.mem_cons_self)
        rw [expression, syn.toTokens_parseExpr hexpr] at hexprs
        simp only [TokenTree.streamSize_cons, TokenTree.size_group, TokenTree.streamSize_nil]
          at hexprs
        omega
      change Differ [_] body.assertion.flatten
      rw [hitems]
      simp [Differ, List.cons_prefix_cons, hitem, hitem.symm]
  | .quantifier exists_ vars body triggers =>
    obtain ⟨rfl, hrhs⟩ := (h.of_primary (by cases exists_ <;> rfl)).of_keyword
    rw [List.append_assoc] at hrhs
    obtain ⟨body', mid, triggers', hbody, htriggers, rfl⟩ :=
      hrhs.of_quantifierRhs (vars.parseQuantifierVars_print _)
    have hread := body.readBack (follower_triggers triggers)
      (by cases triggers <;> rfl) (by cases triggers <;> rfl) hbody
    rw [flatten_quantifier, Primary.assertion, flatten_quantifier]
    refine ⟨.inl rfl, .inr ⟨rfl, .singleton fun heq => ?_⟩⟩
    refine (hread.of_eq (follower_triggers triggers).ends (not_misread hbody trivial) ?_).1
    cases exists_ <;> simp_all [quantifier]
  | .entailment closure vars clauses =>
    rw [Primary.print_entailment] at h
    rw [Primary.assertion, entailment, Assertion.flatten]
    by_cases hno : NotRust false closure.tokens
    · refine ⟨.inr ?_, .inl (.closure ?_)⟩
      · rcases closure.last_of_notRust (.entails _) hno h with rfl | hstuck
        · exact .entails _
        · exact hstuck
      · rwa [expression, syn.toTokens_parseExpr closure.parses]
    · obtain ⟨lhs, mid, hlhs, _, hmid⟩ := h.of_not_primary (closure.not_primary hno (.entails _))
      obtain ⟨hrec, rfl, rfl⟩ := (closure.parseRustUntil_iff (.entails _)).mp hlhs
      obtain ⟨vars', mid, stream, hvars, hgroup, hrhs⟩ :=
        hmid _ (consumeOperator_eq_some_iff.mpr rfl)
      rw [BoundVars.parseEntailmentVars_print] at hvars
      cases hvars
      cases hgroup
      obtain ⟨pres, posts, rfl, hread⟩ := clauses.readBack hrhs
      rw [entailment, Assertion.flatten]
      refine ⟨.inl rfl, .inr ⟨rfl, .singleton fun heq => ⟨⟨hrec, hno⟩, ?_⟩⟩⟩
      simp only [Assertion.specEntailment.injEq] at heq
      exact hread heq.2.2.1 heq.2.2.2

theorem Clauses.readBack (clauses : Clauses syn) {lhs : ExpressionWithoutId E}
    {vars : List (Arg T)} {first : Bool} {pres posts : List (AssertionWithoutId E T)}
    {result : AssertionWithoutId E T} {last : TokenStream}
    (h : Parses syn (.entailmentRhs lhs vars first pres posts) (clauses.print first) result last) :
    ∃ pres' posts', result = entailment syn lhs vars (pres ++ pres') (posts ++ posts') ∧
      (Assertion.flattenEach pres' = Assertion.flattenEach (clauses.assertions false) →
        Assertion.flattenEach posts' = Assertion.flattenEach (clauses.assertions true) →
          clauses.Readable) := by
  match clauses with
  | .nil =>
    refine ⟨[], [], ?_, fun _ _ => trivial⟩
    rw [List.append_nil, List.append_nil]
    cases h with
    | entailmentDone => rfl
    | requires hne => exact absurd rfl hne
    | ensures hne => exact absurd rfl hne
  | .cons ensures body clauses =>
    obtain ⟨side, hside, hrest⟩ := h.of_clause
    obtain ⟨hunambiguous, hbody⟩ := hside.of_assertion body.print_ne_nil
    rw [← List.append_nil body.print] at hbody
    have hread := body.readBack .nil rfl rfl hbody
    have hreadable : side.flatten = body.assertion.flatten → _ := fun heq =>
      (hread.of_eq Follower.nil.ends (not_misread hbody trivial) heq).1
    obtain ⟨pres', posts', rfl, hread'⟩ := clauses.readBack hrest
    cases ensures with
    | false =>
      refine ⟨side :: pres', posts', by simp, fun hpres hposts => ?_⟩
      simp only [Clauses.assertions, if_true, Assertion.flattenEach, List.cons.injEq,
        Assertion.and.injEq] at hpres
      exact ⟨⟨hunambiguous, hreadable hpres.1⟩, hread' hpres.2 hposts⟩
    | true =>
      refine ⟨pres', side :: posts', by simp, fun hpres hposts => ?_⟩
      simp only [Clauses.assertions, if_true, Assertion.flattenEach, List.cons.injEq,
        Assertion.and.injEq] at hposts
      exact ⟨⟨hunambiguous, hreadable hposts.1⟩, hread' hpres hposts.2⟩

/-- What the loop finds after the first conjunct. -/
theorem Conjunction.readBack_loop (conjuncts : Conjunction syn) {beforeComma : Bool}
    {rest mid last : TokenStream} {conjunct : AssertionWithoutId E T}
    {before result : List (AssertionWithoutId E T)}
    (hrest : Follower beforeComma rest) (hdone : consumeOperator "&&" rest = none)
    (hfirst : Parses syn .entailment (conjuncts.print ++ rest) conjunct mid)
    (hloop : Parses syn (.conjuncts (before ++ [conjunct])) mid (.and result) last) :
    ∃ read, result = before ++ conjunct :: read ∧
      ReadBack syn beforeComma (conjuncts.Readable beforeComma) rest last
        (Assertion.flattenAll (conjunct :: read)) (Assertion.flattenAll conjuncts.assertions) := by
  match conjuncts with
  | .single first =>
    have hread := first.readBack hrest hfirst
    rcases hloop.of_conjuncts with ⟨_, rfl, rfl⟩ | ⟨_, _, _, hsome, _⟩
    · refine ⟨[], rfl, ?_⟩
      rw [Conjunction.assertions, Assertion.flattenAll_singleton, Assertion.flattenAll_singleton]
      exact hread
    · have hnone : consumeOperator "&&" mid = none :=
        hread.stops.elim (fun h => h ▸ hdone) fun h => h.consume (by decide)
      rw [hnone] at hsome
      cases hsome
  | .and first conjuncts =>
    rw [Conjunction.print, List.append_assoc, List.append_assoc] at hfirst
    have hread := first.readBack (.and _) hfirst
    rcases hloop.of_conjuncts with
      ⟨hnone, rfl, rfl⟩ | ⟨tokens, second, mid', hsome, hsecond, hloop'⟩
    · rcases hread.items with hitems | ⟨rfl, _⟩
      · rcases hread.stops with rfl | hstuck
        · cases hnone
        · exact ⟨[], rfl, .inr hstuck, .inl (hitems.append_right conjuncts.fits.1)⟩
      · cases hnone
    · rcases hread.stops with rfl | hstuck
      · cases hsome
        obtain ⟨read, rfl, hread'⟩ := conjuncts.readBack_loop hrest hdone hsecond hloop'
        exact ⟨second :: read, List.append_assoc _ _ _, hread.append hread' conjuncts.fits.1⟩
      · rw [hstuck.consume (by decide)] at hsome
        cases hsome

/-- What the parser makes of a print is what was printed only if that is readable. -/
theorem Formula.readBack (formula : Formula syn) {beforeComma : Bool}
    {rest last : TokenStream} {assertion : AssertionWithoutId E T}
    (hrest : Follower beforeComma rest) (hdone : consumeOperator "&&" rest = none)
    (hdone' : consumeOperator "==>" rest = none)
    (h : Parses syn .prusti (formula.print ++ rest) assertion last) :
    ReadBack syn beforeComma (formula.Readable beforeComma) rest last assertion.flatten
      formula.assertion.flatten := by
  obtain ⟨lhs', mid, hlhs, hrhs⟩ := h.of_prusti
  match formula with
  | .conj conjuncts =>
    have hread := Conjunction.readBack_of_loop (conjuncts.readBack_loop hrest hdone) hlhs
    rcases hrhs with ⟨_, rfl, rfl⟩ | ⟨_, _, hsome, _⟩
    · rw [Formula.assertion, flatten_ofConjuncts]
      exact hread
    · have hnone : consumeOperator "==>" mid = none :=
        hread.stops.elim (fun h => h ▸ hdone') fun h => h.consume (by decide)
      rw [hnone] at hsome
      cases hsome
  | .implies lhs rhs =>
    rw [Formula.print, List.append_assoc, List.append_assoc] at hlhs
    have hread := Conjunction.readBack_of_loop (lhs.readBack_loop (.implies _) rfl) hlhs
    rw [Formula.assertion, Assertion.flatten, flatten_ofConjuncts]
    rcases hrhs with ⟨hnone, rfl, rfl⟩ | ⟨mid, rhs', hsome, hrhs, rfl⟩
    · rcases hread.items with hitems | ⟨rfl, _⟩
      · rcases hread.stops with rfl | hstuck
        · cases hnone
        · exact ⟨.inr hstuck, .inl (.lhs hitems)⟩
      · cases hnone
    · rcases hread.stops with rfl | hstuck
      · cases hsome
        have hread' := rhs.readBack hrest hdone hdone' hrhs
        refine ⟨hread'.stops, ?_⟩
        rcases hread.items with hitems | ⟨_, hitems⟩
        · exact .inl (.lhs hitems)
        rcases hread'.items with hitems' | ⟨hlast, hitems'⟩
        · exact .inl (.rhs (by simpa using hitems'))
        rw [Assertion.flatten]
        refine .inr ⟨hlast, .singleton fun heq => ?_⟩
        simp only [Assertion.implies.injEq, Assertion.and.injEq] at heq
        exact ⟨hitems.of_eq heq.1, hitems'.of_eq heq.2⟩
      · rw [hstuck.consume (by decide)] at hsome
        cases hsome

end

/-- The parser gives back what was printed, up to the nesting of conjunctions. -/
def Formula.RoundTrips (formula : Formula syn) : Prop :=
  ∃ assertion, extractAssertion syn (fuelFor formula.print) formula.print = .ok assertion ∧
    assertion.Same formula.assertion

/-- A printed assertion is read back if and only if the parser does not refuse it as
ambiguous and every part of it is readable where it stands. -/
theorem Formula.roundTrips_iff (formula : Formula syn) :
    formula.RoundTrips ↔ containsBothAndOr formula.print = false ∧ formula.Readable false := by
  simp only [RoundTrips, extractAssertion_eq_ok_iff]
  constructor
  · rintro ⟨assertion, hparse, hsame⟩
    obtain ⟨hunambiguous, hparse⟩ := hparse.of_assertion formula.print_ne_nil
    rw [← List.append_nil formula.print] at hparse
    have hread := formula.readBack .nil rfl rfl hparse
    exact ⟨hunambiguous, (hread.of_eq Follower.nil.ends (not_misread hparse trivial) hsame).1⟩
  · rintro ⟨hunambiguous, hread⟩
    have hparse := formula.parses hread .nil rfl rfl
    rw [List.append_nil] at hparse
    exact ⟨formula.assertion, .assertion formula.print_ne_nil hunambiguous hparse, rfl⟩

namespace Witness

/-- Expressions that are their tokens; a variable with a plain type; an array with a
single tuple of one element. -/
def tokenSyn : Syn TokenStream String where
  toTokens := id
  parseExpr tokens :=
    match tokens.getLast? with
    | none => .error "expected expression"
    | some token =>
      if token.isPunct '&' || token.isPunct '|' || token.isPunct '=' then
        .error "expected expression"
      else .ok tokens
  parseArgs tokens :=
    match tokens with
    | [.ident name, .punct ':', .ident typ] => .ok [⟨name, typ⟩]
    | _ => .error "expected variables"
  parseArray tokens :=
    match tokens with
    | [.group .bracket [.group .parenthesis [token, .punct ',']]] => .ok [some [[token]]]
    | _ => .error "expected an array"
  i32 := "i32"
  toTokens_parseExpr := by
    intro tokens expr h
    split at h
    · cases h
    · split at h
      · cases h
      · cases h
        rfl
  endsOperand_parseExpr := by
    intro tokens expr h
    split at h
    · cases h
    · next token htoken =>
        split at h
        · cases h
        · next hno =>
            simp only [Bool.or_eq_true, TokenTree.isPunct_eq_true_iff, not_or] at hno
            refine ⟨token, htoken, ?_⟩
            rintro c (rfl | rfl | rfl)
            · exact hno.1.1
            · exact hno.1.2
            · exact hno.2

/-- An atom that is a single name. -/
def nameAtom (name : String) : Atom tokenSyn where
  tokens := [.ident name]
  expr := [.ident name]
  parses := rfl
  plain := by
    intro operator hmem
    simp only [separators, List.mem_cons, List.not_mem_nil, or_false] at hmem
    rcases hmem with rfl | rfl | rfl | rfl | rfl <;> rfl

/-- `forall(|x: i32| (a ==> b), triggers=[(f,)])`. -/
def parenthesisedBody : Formula tokenSyn :=
  .conj (.single (.quantifier false
    { tokens := [.ident "x", .punct ':', .ident "i32"]
      vars := [⟨"x", "i32"⟩]
      parses := rfl
      nonempty := List.cons_ne_nil _ _
      plain := rfl }
    (.conj (.single (.paren (.implies (.single (.expr (nameAtom "a")))
      (.conj (.single (.expr (nameAtom "b"))))))))
    (some
      { tokens := [.group .bracket [.group .parenthesis [.ident "f", .punct ',']]]
        triggers := [[[.ident "f"]]]
        parses := rfl })))

theorem parenthesisedBody_not_roundTrips : ¬ parenthesisedBody.RoundTrips := by
  rintro ⟨assertion, hparse, _⟩
  have herror : extractAssertion tokenSyn (fuelFor parenthesisedBody.print)
      parenthesisedBody.print = errorNoImplies := rfl
  rw [herror] at hparse
  cases hparse

end Witness

end Prusti.Specs

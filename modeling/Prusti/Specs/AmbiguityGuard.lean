/-
The guard of the parser against expressions that mix `&&` and `||`.
-/
import Prusti.Specs.OrFirst

namespace Prusti.Specs

open Preparser

section Ambiguity

variable {tokens : TokenStream} {operator : String}

theorem containsOperator_eq_false {c : Char} (hc : c ∈ operator.toList)
    (h : .punct c ∉ tokens) : containsOperator tokens operator = false := by
  rw [← Bool.not_eq_true, containsOperator_iff (List.ne_nil_of_mem hc)]
  intro hinside
  exact h (hinside.subset (punct_mem_operatorTokens_iff.mpr hc))

theorem peekOperator_eq_false {c : Char} (hc : c ∈ operator.toList)
    (h : .punct c ∉ tokens) : peekOperator operator tokens = false := by
  rw [← Bool.not_eq_true, peekOperator_iff]
  intro hbegins
  exact h (hbegins.subset (punct_mem_operatorTokens_iff.mpr hc))

theorem containsOperatorRecursive_eq_false_iff (hoperator : operator.toList ≠ []) :
    containsOperatorRecursive operator tokens = false ↔
      containsOperator tokens operator = false ∧
        ∀ token ∈ tokens, tokenContainsOperator operator token = false := by
  induction tokens with
  | nil => simp [containsOperatorRecursive, containsOperator]
  | cons token tokens ih =>
    have hcons : containsOperator (token :: tokens) operator = false ↔
        peekOperator operator (token :: tokens) = false ∧
          containsOperator tokens operator = false := by
      simp only [← Bool.not_eq_true, containsOperator_iff hoperator, peekOperator_iff,
        List.infix_cons_iff, not_or]
    rw [containsOperatorRecursive, Bool.or_eq_false_iff, Bool.or_eq_false_iff, ih, hcons]
    simp only [List.mem_cons, forall_eq_or_imp]
    tauto

theorem tokenContainsBothAndOr_of_mem {seen : SeenOperators} {token : TokenTree}
    (h : containsBothAndOrFrom seen tokens = false) (hmem : token ∈ tokens) :
    tokenContainsBothAndOr token = false := by
  induction tokens generalizing seen with
  | nil => cases hmem
  | cons first tokens ih =>
    simp only [containsBothAndOrFrom, Bool.or_eq_false_iff] at h
    rcases List.mem_cons.mp hmem with rfl | hmem
    · exact h.1.2
    · exact ih h.2 hmem

/-- Where no `==>` stands between them, no `&&` and `||` stand side by side. -/
theorem not_both_of_containsBothAndOrFrom {seen : SeenOperators} (hne : tokens ≠ [])
    (hplain : .punct '=' ∉ tokens) (h : containsBothAndOrFrom seen tokens = false) :
    ¬((seen.and = true ∨ operatorTokens "&&" <:+: tokens) ∧
      (seen.or = true ∨ operatorTokens "||" <:+: tokens)) := by
  induction tokens generalizing seen with
  | nil => exact absurd rfl hne
  | cons token tokens ih =>
    simp only [containsBothAndOrFrom, Bool.or_eq_false_iff] at h
    obtain ⟨⟨hseen, _⟩, htokens⟩ := h
    have himplies : peekOperator "==>" (token :: tokens) = false :=
      peekOperator_eq_false (c := '=') (by decide) hplain
    rintro ⟨hand, hor⟩
    have hand' : (seen.next (token :: tokens)).and = true ∨ operatorTokens "&&" <:+: tokens := by
      rw [List.infix_cons_iff, ← peekOperator_iff] at hand
      rw [SeenOperators.next, himplies]
      split
      · exact .inl rfl
      · next hpeek =>
          rw [or_iff_right hpeek] at hand
          split <;> simpa using hand
    have hor' : (seen.next (token :: tokens)).or = true ∨ operatorTokens "||" <:+: tokens := by
      rw [List.infix_cons_iff, ← peekOperator_iff] at hor
      rw [SeenOperators.next, himplies]
      split
      · next hpeek =>
          have hno : peekOperator "||" (token :: tokens) ≠ true := by
            intro hpeek'
            rw [peekOperator_iff] at hpeek hpeek'
            obtain ⟨rest, hrest⟩ := hpeek
            obtain ⟨rest', hrest'⟩ := hpeek'
            rw [← hrest'] at hrest
            cases hrest
          rwa [or_iff_right hno] at hor
      · split
        · exact .inl rfl
        · next hpeek =>
            rw [or_iff_right hpeek] at hor
            simpa using hor
    by_cases hempty : tokens = []
    · subst hempty
      have hnil : ∀ operator : String, operator.toList ≠ [] →
          ¬ operatorTokens operator <:+: ([] : TokenStream) := by
        intro operator hoperator hinside
        exact operatorTokens_ne_nil hoperator (List.infix_nil.mp hinside)
      rw [or_iff_left (hnil _ (by decide))] at hand' hor'
      rw [hand', hor'] at hseen
      cases hseen
    · exact ih hempty (fun hmem => hplain (List.mem_cons_of_mem _ hmem)) htokens ⟨hand', hor'⟩

end Ambiguity

theorem EndsOperand.append_left {tokens : TokenStream} (h : EndsOperand tokens)
    (front : TokenStream) : EndsOperand (front ++ tokens) := by
  have hne := h.ne_nil
  obtain ⟨token, htoken, hno⟩ := h
  exact ⟨token, by rw [List.getLast?_append_of_ne_nil _ hne, htoken], hno⟩

mutual

theorem RustOperand.endsOperand_print (operand : RustOperand) : EndsOperand operand.print := by
  match operand with
  | .atom atom =>
    have hne : atom.tokens ≠ [] := List.cons_ne_nil _ _
    refine ⟨_, List.getLast?_eq_some_getLast hne, ?_⟩
    intro c hc heq
    have hmem := List.getLast_mem hne
    rw [heq] at hmem
    refine atom.not_punct ?_ hmem
    rcases hc with rfl | rfl | rfl <;> decide
  | .not operand => exact operand.endsOperand_print.append_left [.punct '!']
  | .paren expr => exact ⟨_, rfl, fun c _ heq => by cases heq⟩

theorem RustAnd.endsOperand_print (conjuncts : RustAnd) : EndsOperand conjuncts.print := by
  match conjuncts with
  | .single operand => exact operand.endsOperand_print
  | .and operand rest => exact (rest.endsOperand_print.append_left _).append_left _

theorem RustOr.endsOperand_print (expr : RustOr) : EndsOperand expr.print := by
  match expr with
  | .single conjuncts => exact conjuncts.endsOperand_print
  | .or conjuncts rest => exact (rest.endsOperand_print.append_left _).append_left _

end

theorem RustAnd.infix_of_hasAnd (conjuncts : RustAnd) (h : conjuncts.hasAnd = true) :
    operatorTokens "&&" <:+: conjuncts.print := by
  match conjuncts with
  | .and operand rest => exact ⟨operand.print, rest.print, List.append_assoc _ _ _⟩

theorem RustOr.infix_of_hasAnd (expr : RustOr) (h : expr.hasAnd = true) :
    operatorTokens "&&" <:+: expr.print := by
  match expr with
  | .single conjuncts => exact conjuncts.infix_of_hasAnd h
  | .or conjuncts rest =>
    rw [hasAnd, Bool.or_eq_true] at h
    rcases h with h | h
    · exact (conjuncts.infix_of_hasAnd h).trans (List.prefix_append _ _).isInfix
    · exact (rest.infix_of_hasAnd h).trans
        ((List.suffix_append _ _).trans (List.suffix_append _ _)).isInfix

theorem RustOr.infix_of_hasOr (expr : RustOr) (h : expr.hasOr = true) :
    operatorTokens "||" <:+: expr.print := by
  match expr with
  | .or conjuncts rest => exact ⟨conjuncts.print, rest.print, List.append_assoc _ _ _⟩

theorem RustOr.print_ne_nil (expr : RustOr) : expr.print ≠ [] := expr.endsOperand_print.ne_nil

/-- The guard of the parser sees where `&&` and `||` are mixed. -/
theorem RustOr.not_mixed_of_unambiguous {expr : RustOr}
    (h : containsBothAndOr expr.print = false) : expr.mixed = false := by
  have hboth := not_both_of_containsBothAndOrFrom expr.print_ne_nil (expr.not_punct (by decide)) h
  rw [← Bool.not_eq_true, mixed, Bool.and_eq_true]
  rintro ⟨hand, hor⟩
  exact hboth ⟨.inr (expr.infix_of_hasAnd hand), .inr (expr.infix_of_hasOr hor)⟩

end Prusti.Specs

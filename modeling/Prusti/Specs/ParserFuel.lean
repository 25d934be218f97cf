/-
The preparser always finishes.
-/
import Prusti.Specs.Preparser

namespace Prusti.Specs.Preparser

open Prusti.Lib

variable {E T : Type} (syn : Syn E T)

/-- The computation finishes, and leaves at most so many tokens. -/
def Leaves {α : Type} (bound : Nat) (outcome : Outcome (α × TokenStream)) : Prop :=
  outcome ≠ .error .outOfFuel ∧
    ∀ value rest, outcome = .ok (value, rest) → TokenTree.streamSize rest ≤ bound

namespace Leaves

variable {α β : Type} {bound bound' : Nat}

theorem ok (value : α) {rest : TokenStream} (h : TokenTree.streamSize rest ≤ bound) :
    Leaves bound (.ok (value, rest) : Outcome (α × TokenStream)) := by
  refine ⟨by simp, ?_⟩
  intro value' rest' heq
  cases heq
  exact h

theorem error (message : String) :
    Leaves bound (.error (.error message) : Outcome (α × TokenStream)) :=
  ⟨by simp, by simp⟩

theorem bind {first : Outcome (α × TokenStream)}
    {next : α × TokenStream → Outcome (β × TokenStream)} (h : Leaves bound' first)
    (hnext : ∀ value rest, TokenTree.streamSize rest ≤ bound' →
      Leaves bound (next (value, rest))) : Leaves bound (first >>= next) := by
  cases first with
  | error stop =>
    constructor
    · intro heq
      cases heq
      exact h.1 rfl
    · intro value rest heq
      cases heq
  | ok item => exact hnext item.1 item.2 (h.2 item.1 item.2 rfl)

/-- A part that reads no tokens. -/
theorem bind_value {first : Outcome α} {next : α → Outcome (β × TokenStream)}
    (h : first ≠ .error .outOfFuel) (hnext : ∀ value, Leaves bound (next value)) :
    Leaves bound (first >>= next) := by
  cases first with
  | error stop =>
    constructor
    · intro heq
      cases heq
      exact h rfl
    · intro value rest heq
      cases heq
  | ok value => exact hnext value

end Leaves

section Bounds

open TokenTree

variable {tokens rest stream : TokenStream}

theorem streamSize_consumeOperator {operator : String}
    (h : consumeOperator operator tokens = some rest) (hne : operator.toList ≠ []) :
    streamSize rest < streamSize tokens := by
  rw [consumeOperator_eq_some_iff] at h
  have hpos : streamSize (operatorTokens operator) ≠ 0 := by
    rw [Ne, streamSize_eq_zero_iff, operatorTokens, List.map_eq_nil_iff]
    exact hne
  rw [h, streamSize_append]
  omega

theorem streamSize_consumeKeyword {keyword : String}
    (h : consumeKeyword keyword tokens = some rest) :
    streamSize rest < streamSize tokens := by
  rw [consumeKeyword_eq_some_iff] at h
  rw [h, streamSize_cons, size_ident]
  omega

theorem streamSize_consumeGroup {delimiter : Delimiter}
    (h : consumeGroup delimiter tokens = some (stream, rest)) :
    streamSize stream + streamSize rest < streamSize tokens := by
  rw [consumeGroup_eq_some_iff] at h
  rw [h, streamSize_cons, size]
  omega

theorem streamSize_popUntil (stop : TokenStream → Bool) (tokens : TokenStream) :
    streamSize (popUntil stop tokens).1 + streamSize (popUntil stop tokens).2 =
      streamSize tokens := by
  rw [← streamSize_append, popUntil_append]

theorem leaves_parseRustUntil (terminator : String) (tokens : TokenStream) :
    Leaves (streamSize tokens) (parseRustUntil syn terminator tokens) := by
  have hsize := streamSize_popUntil (endsRust terminator) tokens
  unfold parseRustUntil
  dsimp only
  split
  · exact .error _
  · split
    · exact .error _
    · refine .bind_value (Stop.callback_ne_outOfFuel _) fun expr => ?_
      exact .ok _ (by omega)

theorem leaves_parseEntailmentVars (tokens : TokenStream) :
    Leaves (streamSize tokens) (parseEntailmentVars syn tokens) := by
  unfold parseEntailmentVars
  split
  · exact .ok _ le_rfl
  · next rest h =>
      have hrest := streamSize_consumeOperator h (by decide)
      have hsize := streamSize_popUntil (peekOperator "|") rest
      refine .bind_value (Stop.callback_ne_outOfFuel _) fun args => ?_
      split
      · exact .error _
      · next rest' h' =>
          have hrest' := streamSize_consumeOperator h' (by decide)
          rw [createStreamUntil] at hrest'
          exact .ok _ (by omega)

theorem leaves_parseQuantifierVars (tokens : TokenStream) :
    Leaves (streamSize tokens) (parseQuantifierVars syn tokens) := by
  unfold parseQuantifierVars
  split
  · exact .error _
  · next rest h =>
      have hrest := streamSize_consumeOperator h (by decide)
      have hsize := streamSize_popUntil (peekOperator "|") rest
      split
      · exact .error _
      · refine .bind_value (Stop.callback_ne_outOfFuel _) fun args => ?_
        split
        · exact .error _
        · next rest' h' =>
            have hrest' := streamSize_consumeOperator h' (by decide)
            rw [createStreamUntil] at hrest'
            exact .ok _ (by omega)

theorem triggersOfArray_ne_outOfFuel (items : List (Option (List E))) :
    triggersOfArray items ≠ .error .outOfFuel := by
  induction items with
  | nil => simp [triggersOfArray]
  | cons item items ih =>
    cases item with
    | none => simp [triggersOfArray, errorExpectedTuple]
    | some elems =>
      rw [triggersOfArray]
      cases h : triggersOfArray items with
      | error stop =>
        rw [h] at ih
        exact fun heq => ih (by cases heq; rfl)
      | ok triggers => exact fun heq => by cases heq

theorem parseTriggers_ne_outOfFuel (tokens : TokenStream) :
    parseTriggers syn tokens ≠ .error .outOfFuel := by
  unfold parseTriggers
  repeat' split
  all_goals first
    | exact triggersOfArray_ne_outOfFuel _
    | simp [errorExpected, errorExpectedTuple]

/-- The fuel that is enough for these tokens. -/
def fuelFor (tokens : TokenStream) : Nat := 6 * streamSize tokens + 5

/-- With this much fuel the parser finishes, and leaves no more tokens than it got. -/
theorem finishes (fuel : Nat) :
    (∀ tokens, 6 * streamSize tokens + 5 ≤ fuel →
      extractAssertion syn fuel tokens ≠ .error .outOfFuel) ∧
    (∀ tokens, 6 * streamSize tokens + 4 ≤ fuel →
      Leaves (streamSize tokens) (parsePrusti syn fuel tokens)) ∧
    (∀ tokens, 6 * streamSize tokens + 3 ≤ fuel →
      Leaves (streamSize tokens) (parseConjunction syn fuel tokens)) ∧
    (∀ conjuncts tokens, 6 * streamSize tokens + 1 ≤ fuel →
      Leaves (streamSize tokens) (parseConjuncts syn fuel conjuncts tokens)) ∧
    (∀ tokens, 6 * streamSize tokens + 2 ≤ fuel →
      Leaves (streamSize tokens) (parseEntailment syn fuel tokens)) ∧
    (∀ first pres posts tokens, 6 * streamSize tokens + 1 ≤ fuel →
      extractEntailmentRhs syn fuel first pres posts tokens ≠ .error .outOfFuel) ∧
    (∀ tokens, 6 * streamSize tokens + 1 ≤ fuel →
      Leaves (streamSize tokens) (parsePrimary syn fuel tokens)) ∧
    (∀ exists_ tokens, 6 * streamSize tokens + 5 ≤ fuel →
      extractQuantifierRhs syn fuel exists_ tokens ≠ .error .outOfFuel) := by
  induction fuel with
  | zero => refine ⟨?_, ?_, ?_, ?_, ?_, ?_, ?_, ?_⟩ <;> intros <;> omega
  | succ fuel ih =>
    obtain ⟨hassertion, hprusti, hconjunction, hconjuncts, hentailment, hrhs, hprimary,
      hquantifier⟩ := ih
    refine ⟨?_, ?_, ?_, ?_, ?_, ?_, ?_, ?_⟩
    · intro tokens hfuel
      unfold extractAssertion
      split
      · simp
      · split
        · simp [errorAmbiguousExpression]
        · refine Stop.bind_ne_outOfFuel (hprusti tokens (by omega)).1 fun item _ => ?_
          dsimp only
          split
          · intro heq
            cases heq
          · simp [errorUnexpected]
    · intro tokens hfuel
      unfold parsePrusti
      refine .bind (hconjunction tokens (by omega)) fun lhs rest hrest => ?_
      dsimp only
      split
      · exact .ok _ hrest
      · next rest' h =>
          have hrest' := streamSize_consumeOperator h (by decide)
          refine .bind (hprusti rest' (by omega)) fun rhs rest'' hrest'' => ?_
          exact .ok _ (hrest''.trans (by omega))
    · intro tokens hfuel
      unfold parseConjunction
      refine .bind (hentailment tokens (by omega)) fun conjunct rest hrest => ?_
      refine .bind (hconjuncts _ rest (by omega)) fun conjuncts rest' hrest' => ?_
      exact .ok _ (by omega)
    · intro conjuncts tokens hfuel
      unfold parseConjuncts
      split
      · exact .ok _ le_rfl
      · next rest h =>
          have hrest := streamSize_consumeOperator h (by decide)
          refine .bind (hentailment rest (by omega)) fun conjunct rest' hrest' => ?_
          have hloop := hconjuncts (conjuncts ++ [conjunct]) rest' (by omega)
          exact ⟨hloop.1, fun value last hlast =>
            (hloop.2 value last hlast).trans (by omega)⟩
    · intro tokens hfuel
      unfold parseEntailment
      split
      · exact hprimary tokens (by omega)
      · refine .bind (leaves_parseRustUntil syn "," tokens) fun lhs rest hrest => ?_
        dsimp only
        split
        · exact .ok _ hrest
        · next rest' h =>
            have hrest' := streamSize_consumeOperator h (by decide)
            refine .bind (leaves_parseEntailmentVars syn rest') fun vars rest'' hrest'' => ?_
            dsimp only
            split
            · exact .error _
            · next stream last h' =>
                have hgroup := streamSize_consumeGroup h'
                refine .bind_value (hrhs true [] [] stream (by omega)) fun parts => ?_
                exact .ok _ (by omega)
    · intro first pres posts tokens hfuel
      unfold extractEntailmentRhs
      split
      · simp
      · split
        · simp [errorExpected]
        · next rest h =>
            have hrest : streamSize rest ≤ streamSize tokens := by
              split at h
              · cases h
                exact le_rfl
              · exact (streamSize_consumeOperator h (by decide)).le
            split
            · next rest' h' =>
                have hrest' := streamSize_consumeKeyword h'
                split
                · simp [errorExpected]
                · next stream last h'' =>
                    have hgroup := streamSize_consumeGroup h''
                    exact Stop.bind_ne_outOfFuel (hassertion stream (by omega))
                      fun pre _ => hrhs _ _ _ _ (by omega)
            · split
              · simp [errorExpected]
              · next rest' h' =>
                  have hrest' := streamSize_consumeKeyword h'
                  split
                  · simp [errorExpected]
                  · next stream last h'' =>
                      have hgroup := streamSize_consumeGroup h''
                      exact Stop.bind_ne_outOfFuel (hassertion stream (by omega))
                        fun post _ => hrhs _ _ _ _ (by omega)
    · intro tokens hfuel
      unfold parsePrimary
      split
      · next stream rest h =>
          have hgroup := streamSize_consumeGroup h
          refine .bind_value (hassertion stream (by omega)) fun assertion => ?_
          exact .ok _ (by omega)
      · split
        · next rest h =>
            have hrest := streamSize_consumeKeyword h
            split
            · exact .error _
            · next stream last h' =>
                have hgroup := streamSize_consumeGroup h'
                refine .bind_value (hquantifier false stream (by omega)) fun body => ?_
                exact .ok _ (by omega)
        · split
          · exact .error _
          · next rest h =>
              have hrest := streamSize_consumeKeyword h
              split
              · exact .error _
              · next stream last h' =>
                  have hgroup := streamSize_consumeGroup h'
                  refine .bind_value (hquantifier true stream (by omega)) fun body => ?_
                  exact .ok _ (by omega)
    · intro exists_ tokens hfuel
      unfold extractQuantifierRhs
      have hvars := leaves_parseQuantifierVars syn tokens
      refine Stop.bind_ne_outOfFuel hvars.1 fun item hitem => ?_
      have hrest := hvars.2 item.1 item.2 hitem
      refine Stop.bind_ne_outOfFuel (hprusti item.2 (by omega)).1 fun item' _ => ?_
      refine Stop.bind_ne_outOfFuel (parseTriggers_ne_outOfFuel syn item'.2)
        fun triggers _ heq => ?_
      cases heq

end Bounds

end Prusti.Specs.Preparser

/-
The grammar of the preparser: the derivations behind its results.
-/
import Prusti.Specs.ParserFuel

namespace Prusti.Specs.Preparser

open Prusti.Lib

variable {E T : Type} (syn : Syn E T)

/-- What is parsed.  A loop is named by what it has collected so far, and the result of
the loop over conjuncts is their conjunction. -/
inductive Goal (E T : Type) where
  | assertion
  | prusti
  | conjunction
  | conjuncts (conjuncts : List (AssertionWithoutId E T))
  | entailment
  | primary
  | quantifierRhs (exists_ : Bool)
  | entailmentRhs (lhs : ExpressionWithoutId E) (vars : List (Arg T)) (first : Bool)
      (pres posts : List (AssertionWithoutId E T))

/-- The parser expects a group or a quantifier. -/
abbrev startsPrimary (tokens : TokenStream) : Bool :=
  (peekGroup .parenthesis tokens && !isPartOfRustExpr tokens) ||
    peekKeyword "forall" tokens || peekKeyword "exists" tokens

/-- The tokens are parsed to an assertion, and some tokens are left. -/
inductive Parses : Goal E T → TokenStream → AssertionWithoutId E T → TokenStream → Prop
  | empty : Parses .assertion [] (.and []) []
  | assertion {tokens assertion} (hne : tokens ≠ [])
      (hunambiguous : containsBothAndOr tokens = false)
      (h : Parses .prusti tokens assertion []) : Parses .assertion tokens assertion []
  | prusti {tokens lhs rest} (h : Parses .conjunction tokens lhs rest)
      (hrest : consumeOperator "==>" rest = none) : Parses .prusti tokens lhs rest
  | implies {tokens lhs rest rest' rhs last} (h : Parses .conjunction tokens lhs rest)
      (hrest : consumeOperator "==>" rest = some rest') (h' : Parses .prusti rest' rhs last) :
      Parses .prusti tokens (.implies lhs rhs) last
  | conjunction {tokens conjunct rest conjuncts last} (h : Parses .entailment tokens conjunct rest)
      (h' : Parses (.conjuncts [conjunct]) rest (.and conjuncts) last) :
      Parses .conjunction tokens (ofConjuncts conjuncts) last
  | done {tokens conjuncts} (h : consumeOperator "&&" tokens = none) :
      Parses (.conjuncts conjuncts) tokens (.and conjuncts) tokens
  | next {conjuncts tokens rest conjunct rest' result last}
      (hrest : consumeOperator "&&" tokens = some rest) (h : Parses .entailment rest conjunct rest')
      (h' : Parses (.conjuncts (conjuncts ++ [conjunct])) rest' result last) :
      Parses (.conjuncts conjuncts) tokens result last
  | primary {tokens assertion rest}
      (hprimary : startsPrimary tokens = true) (h : Parses .primary tokens assertion rest) :
      Parses .entailment tokens assertion rest
  | expr {tokens lhs rest}
      (hprimary : startsPrimary tokens = false)
      (hlhs : parseRustUntil syn "," tokens = .ok (lhs, rest))
      (hrest : consumeOperator "|=" rest = none) : Parses .entailment tokens (.expr lhs) rest
  | entailment {tokens lhs rest rest' vars rest'' stream last result}
      (hprimary : startsPrimary tokens = false)
      (hlhs : parseRustUntil syn "," tokens = .ok (lhs, rest))
      (hrest : consumeOperator "|=" rest = some rest')
      (hvars : parseEntailmentVars syn rest' = .ok (vars, rest''))
      (hgroup : consumeGroup .bracket rest'' = some (stream, last))
      (h : Parses (.entailmentRhs lhs vars true [] []) stream result []) :
      Parses .entailment tokens result last
  | entailmentDone {lhs vars first pres posts} :
      Parses (.entailmentRhs lhs vars first pres posts) []
        (Preparser.entailment syn lhs vars pres posts) []
  | requires {lhs vars first pres posts tokens rest rest' stream last pre result}
      (hne : tokens ≠ [])
      (hcomma : (if first then some tokens else consumeOperator "," tokens) = some rest)
      (hkeyword : consumeKeyword "requires" rest = some rest')
      (hgroup : consumeGroup .parenthesis rest' = some (stream, last))
      (h : Parses .assertion stream pre [])
      (h' : Parses (.entailmentRhs lhs vars false (pres ++ [pre]) posts) last result []) :
      Parses (.entailmentRhs lhs vars first pres posts) tokens result []
  | ensures {lhs vars first pres posts tokens rest rest' stream last post result}
      (hne : tokens ≠ [])
      (hcomma : (if first then some tokens else consumeOperator "," tokens) = some rest)
      (hkeyword : consumeKeyword "requires" rest = none)
      (hkeyword' : consumeKeyword "ensures" rest = some rest')
      (hgroup : consumeGroup .parenthesis rest' = some (stream, last))
      (h : Parses .assertion stream post [])
      (h' : Parses (.entailmentRhs lhs vars false pres (posts ++ [post])) last result []) :
      Parses (.entailmentRhs lhs vars first pres posts) tokens result []
  | paren {tokens stream rest assertion}
      (hgroup : consumeGroup .parenthesis tokens = some (stream, rest))
      (h : Parses .assertion stream assertion []) : Parses .primary tokens assertion rest
  | forAll {tokens rest stream last assertion} (hgroup : consumeGroup .parenthesis tokens = none)
      (hkeyword : consumeKeyword "forall" tokens = some rest)
      (hgroup' : consumeGroup .parenthesis rest = some (stream, last))
      (h : Parses (.quantifierRhs false) stream assertion []) :
      Parses .primary tokens assertion last
  | exist {tokens rest stream last assertion} (hgroup : consumeGroup .parenthesis tokens = none)
      (hkeyword : consumeKeyword "forall" tokens = none)
      (hkeyword' : consumeKeyword "exists" tokens = some rest)
      (hgroup' : consumeGroup .parenthesis rest = some (stream, last))
      (h : Parses (.quantifierRhs true) stream assertion []) :
      Parses .primary tokens assertion last
  | quantifierRhs {exists_ tokens vars rest body rest' triggers}
      (hvars : parseQuantifierVars syn tokens = .ok (vars, rest))
      (h : Parses .prusti rest body rest') (htriggers : parseTriggers syn rest' = .ok triggers) :
      Parses (.quantifierRhs exists_) tokens (quantifier exists_ vars triggers body) []

/-- What the parser computes for a goal. -/
def run (fuel : Nat) : Goal E T → TokenStream → Outcome (AssertionWithoutId E T × TokenStream)
  | .assertion, tokens => do
    let assertion ← extractAssertion syn fuel tokens
    return (assertion, [])
  | .prusti, tokens => parsePrusti syn fuel tokens
  | .conjunction, tokens => parseConjunction syn fuel tokens
  | .conjuncts conjuncts, tokens => do
    let (conjuncts, rest) ← parseConjuncts syn fuel conjuncts tokens
    return (.and conjuncts, rest)
  | .entailment, tokens => parseEntailment syn fuel tokens
  | .primary, tokens => parsePrimary syn fuel tokens
  | .quantifierRhs exists_, tokens => do
    let assertion ← extractQuantifierRhs syn fuel exists_ tokens
    return (assertion, [])
  | .entailmentRhs lhs vars first pres posts, tokens => do
    let (pres, posts) ← extractEntailmentRhs syn fuel first pres posts tokens
    return (entailment syn lhs vars pres posts, [])

variable {syn}

variable {tokens : TokenStream} {result : AssertionWithoutId E T}

/-- What the parser returns has a derivation. -/
theorem parses_of_run (fuel : Nat) (goal : Goal E T) (tokens : TokenStream)
    (assertion : AssertionWithoutId E T) (rest : TokenStream)
    (h : run syn fuel goal tokens = .ok (assertion, rest)) :
    Parses syn goal tokens assertion rest := by
  induction fuel generalizing goal tokens assertion rest with
  | zero => cases goal <;> cases h
  | succ fuel ih =>
    cases goal with
    | assertion =>
      rw [run, extractAssertion] at h
      obtain ⟨result, hresult, h⟩ := exists_of_bind_eq_ok h
      cases h
      split at hresult
      · next hempty =>
          cases hresult
          rw [List.isEmpty_iff] at hempty
          subst hempty
          exact .empty
      · next hempty =>
          split at hresult
          · cases hresult
          · next hunambiguous =>
              obtain ⟨⟨result', last⟩, hparse, hresult⟩ := exists_of_bind_eq_ok hresult
              dsimp only at hresult
              split at hresult
              · next hlast =>
                  cases hresult
                  rw [List.isEmpty_iff] at hlast
                  subst hlast
                  exact .assertion (by simpa using hempty) (by simpa using hunambiguous)
                    (ih .prusti _ _ _ hparse)
              · cases hresult
    | prusti =>
      rw [run, parsePrusti] at h
      obtain ⟨⟨lhs, mid⟩, hlhs, h⟩ := exists_of_bind_eq_ok h
      have hlhs := ih .conjunction _ _ _ hlhs
      dsimp only at h
      split at h
      · next hmid =>
          cases h
          exact .prusti hlhs hmid
      · next mid' hmid =>
          obtain ⟨⟨rhs, last⟩, hrhs, h⟩ := exists_of_bind_eq_ok h
          cases h
          exact .implies hlhs hmid (ih .prusti _ _ _ hrhs)
    | conjunction =>
      rw [run, parseConjunction] at h
      obtain ⟨⟨conjunct, mid⟩, hconjunct, h⟩ := exists_of_bind_eq_ok h
      obtain ⟨⟨conjuncts, last⟩, hloop, h⟩ := exists_of_bind_eq_ok h
      cases h
      refine .conjunction (ih .entailment _ _ _ hconjunct) (ih (.conjuncts [conjunct]) _ _ _ ?_)
      rw [run, hloop]
      rfl
    | conjuncts conjuncts =>
      rw [run, parseConjuncts] at h
      split at h
      · next hmid =>
          cases h
          exact .done hmid
      · next mid hmid =>
          obtain ⟨⟨conjuncts', last⟩, hloop, h⟩ := exists_of_bind_eq_ok h
          cases h
          obtain ⟨⟨conjunct, mid'⟩, hconjunct, hloop⟩ := exists_of_bind_eq_ok hloop
          dsimp only at hloop
          refine .next hmid (ih .entailment _ _ _ hconjunct)
            (ih (.conjuncts (conjuncts ++ [conjunct])) _ _ _ ?_)
          rw [run, hloop]
          rfl
    | entailment =>
      rw [run, parseEntailment] at h
      split at h
      · next hprimary => exact .primary hprimary (ih .primary _ _ _ h)
      · next hprimary =>
          rw [Bool.not_eq_true] at hprimary
          obtain ⟨⟨lhs, mid⟩, hlhs, h⟩ := exists_of_bind_eq_ok h
          dsimp only at h
          split at h
          · next hmid =>
              cases h
              exact .expr hprimary hlhs hmid
          · next mid' hmid =>
              obtain ⟨⟨vars, mid''⟩, hvars, h⟩ := exists_of_bind_eq_ok h
              dsimp only at h
              split at h
              · cases h
              · next stream last hgroup =>
                  obtain ⟨⟨pres, posts⟩, hparts, h⟩ := exists_of_bind_eq_ok h
                  cases h
                  refine .entailment hprimary hlhs hmid hvars hgroup
                    (ih (.entailmentRhs lhs vars true [] []) _ _ _ ?_)
                  rw [run, hparts]
                  rfl
    | primary =>
      rw [run, parsePrimary] at h
      split at h
      · next stream last hgroup =>
          obtain ⟨result, hresult, h⟩ := exists_of_bind_eq_ok h
          cases h
          refine .paren hgroup (ih .assertion _ _ _ ?_)
          rw [run, hresult]
          rfl
      · next hgroup =>
          split at h
          · next mid hkeyword =>
              split at h
              · cases h
              · next stream last hgroup' =>
                  obtain ⟨result, hresult, h⟩ := exists_of_bind_eq_ok h
                  cases h
                  refine .forAll hgroup hkeyword hgroup' (ih (.quantifierRhs false) _ _ _ ?_)
                  rw [run, hresult]
                  rfl
          · next hkeyword =>
              split at h
              · cases h
              · next mid hkeyword' =>
                  split at h
                  · cases h
                  · next stream last hgroup' =>
                      obtain ⟨result, hresult, h⟩ := exists_of_bind_eq_ok h
                      cases h
                      refine .exist hgroup hkeyword hkeyword' hgroup'
                        (ih (.quantifierRhs true) _ _ _ ?_)
                      rw [run, hresult]
                      rfl
    | quantifierRhs exists_ =>
      rw [run, extractQuantifierRhs] at h
      obtain ⟨result, hresult, h⟩ := exists_of_bind_eq_ok h
      cases h
      obtain ⟨⟨vars, mid⟩, hvars, hresult⟩ := exists_of_bind_eq_ok hresult
      obtain ⟨⟨body, mid'⟩, hbody, hresult⟩ := exists_of_bind_eq_ok hresult
      obtain ⟨triggers, htriggers, hresult⟩ := exists_of_bind_eq_ok hresult
      cases hresult
      exact .quantifierRhs hvars (ih .prusti _ _ _ hbody) htriggers
    | entailmentRhs lhs vars first pres posts =>
      rw [run, extractEntailmentRhs] at h
      obtain ⟨⟨pres', posts'⟩, hparts, h⟩ := exists_of_bind_eq_ok h
      cases h
      split at hparts
      · next hempty =>
          cases hparts
          rw [List.isEmpty_iff] at hempty
          subst hempty
          exact .entailmentDone
      · next hempty =>
          have hne : tokens ≠ [] := by simpa using hempty
          split at hparts
          · cases hparts
          · next mid hcomma =>
              split at hparts
              · next mid' hkeyword =>
                  split at hparts
                  · cases hparts
                  · next stream last hgroup =>
                      obtain ⟨pre, hpre, hparts⟩ := exists_of_bind_eq_ok hparts
                      refine .requires hne hcomma hkeyword hgroup
                        (ih .assertion _ _ _ (by rw [run, hpre]; rfl))
                        (ih (.entailmentRhs lhs vars false (pres ++ [pre]) posts) _ _ _ ?_)
                      rw [run, hparts]
                      rfl
              · next hkeyword =>
                  split at hparts
                  · cases hparts
                  · next mid' hkeyword' =>
                      split at hparts
                      · cases hparts
                      · next stream last hgroup =>
                          obtain ⟨post, hpost, hparts⟩ := exists_of_bind_eq_ok hparts
                          refine .ensures hne hcomma hkeyword hkeyword' hgroup
                            (ih .assertion _ _ _ (by rw [run, hpost]; rfl))
                            (ih (.entailmentRhs lhs vars false pres (posts ++ [post])) _ _ _ ?_)
                          rw [run, hparts]
                          rfl

section Run

variable {fuel : Nat} {tokens rest : TokenStream} {result : AssertionWithoutId E T}

theorem run_assertion_iff :
    run syn fuel .assertion tokens = .ok (result, rest) ↔
      extractAssertion syn fuel tokens = .ok result ∧ rest = [] := by
  simp only [run, bind_eq_ok_iff, pure_eq_ok_iff, Prod.mk.injEq]
  constructor
  · rintro ⟨_, h, rfl, rfl⟩
    exact ⟨h, rfl⟩
  · rintro ⟨h, rfl⟩
    exact ⟨result, h, rfl, rfl⟩

theorem run_quantifierRhs_iff {exists_ : Bool} :
    run syn fuel (.quantifierRhs exists_) tokens = .ok (result, rest) ↔
      extractQuantifierRhs syn fuel exists_ tokens = .ok result ∧ rest = [] := by
  simp only [run, bind_eq_ok_iff, pure_eq_ok_iff, Prod.mk.injEq]
  constructor
  · rintro ⟨_, h, rfl, rfl⟩
    exact ⟨h, rfl⟩
  · rintro ⟨h, rfl⟩
    exact ⟨result, h, rfl, rfl⟩

theorem run_conjuncts_iff {conjuncts : List (AssertionWithoutId E T)} :
    run syn fuel (.conjuncts conjuncts) tokens = .ok (result, rest) ↔
      ∃ conjuncts', parseConjuncts syn fuel conjuncts tokens = .ok (conjuncts', rest) ∧
        .and conjuncts' = result := by
  simp [run]

theorem run_entailmentRhs_iff {lhs : ExpressionWithoutId E} {vars : List (Arg T)}
    {first : Bool} {pres posts : List (AssertionWithoutId E T)} :
    run syn fuel (.entailmentRhs lhs vars first pres posts) tokens = .ok (result, rest) ↔
      ∃ pres' posts', extractEntailmentRhs syn fuel first pres posts tokens =
        .ok (pres', posts') ∧ entailment syn lhs vars pres' posts' = result ∧ [] = rest := by
  simp [run]

theorem exists_succ {goal : Goal E T} (hfinish : run syn fuel goal tokens ≠ .error .outOfFuel) :
    ∃ fuel', fuel = fuel' + 1 := by
  cases fuel with
  | zero => cases goal <;> exact absurd rfl hfinish
  | succ fuel => exact ⟨fuel, rfl⟩

/-- What has a derivation is what the parser returns when it finishes. -/
theorem run_of_parses {goal : Goal E T} (h : Parses syn goal tokens result rest)
    (hfinish : run syn fuel goal tokens ≠ .error .outOfFuel) :
    run syn fuel goal tokens = .ok (result, rest) := by
  induction h generalizing fuel <;> obtain ⟨fuel, rfl⟩ := exists_succ hfinish
  case empty =>
    rfl
  case assertion hne hunambiguous _ ih =>
    rw [run, extractAssertion, if_neg (by simpa using hne), hunambiguous,
      if_neg Bool.false_ne_true] at hfinish ⊢
    have hprusti := ih fun h => hfinish (by rw [← run, h]; rfl)
    rw [run] at hprusti
    rw [hprusti]
    rfl
  case prusti _ hrest ih =>
    rw [run, parsePrusti] at hfinish ⊢
    have hlhs : parseConjunction syn fuel _ = _ := ih fun h => hfinish (by rw [← run, h]; rfl)
    simp only [hlhs, ok_bind, hrest]
    rfl
  case implies _ hrest _ ih ih' =>
    rw [run, parsePrusti] at hfinish ⊢
    have hlhs : parseConjunction syn fuel _ = _ := ih fun h => hfinish (by rw [← run, h]; rfl)
    simp only [hlhs, ok_bind, hrest] at hfinish ⊢
    have hrhs : parsePrusti syn fuel _ = _ := ih' fun h => hfinish (by rw [← run, h]; rfl)
    rw [hrhs]
    rfl
  case conjunction _ _ ih ih' =>
    rw [run, parseConjunction] at hfinish ⊢
    have hconjunct : parseEntailment syn fuel _ = _ := ih fun h => hfinish (by rw [← run, h]; rfl)
    simp only [hconjunct, ok_bind] at hfinish ⊢
    obtain ⟨conjuncts, hloop, heq⟩ := run_conjuncts_iff.mp
      (@ih' fuel (Stop.bind_pure_ne_outOfFuel hfinish))
    cases heq
    rw [hloop]
    rfl
  case done h =>
    rw [run, parseConjuncts, h]
    rfl
  case next hrest _ _ ih ih' =>
    simp only [run, parseConjuncts, hrest] at hfinish ⊢
    have hconjunct : parseEntailment syn fuel _ = _ :=
      ih fun h => hfinish (by rw [run] at h; rw [h]; rfl)
    rw [hconjunct] at hfinish ⊢
    exact ih' hfinish
  case primary hprimary _ ih =>
    rw [run, parseEntailment, if_pos hprimary] at hfinish ⊢
    exact ih hfinish
  case expr hprimary hlhs hrest =>
    simp only [run, parseEntailment, hprimary, Bool.false_eq_true, if_false, hlhs, ok_bind, hrest]
    rfl
  case entailment hprimary hlhs hrest hvars hgroup _ ih =>
    simp only [run, parseEntailment, hprimary, Bool.false_eq_true, if_false, hlhs, ok_bind,
      hrest, hvars, hgroup] at hfinish ⊢
    obtain ⟨pres, posts, hparts, rfl, _⟩ := run_entailmentRhs_iff.mp
      (@ih fuel (Stop.bind_pure_ne_outOfFuel hfinish))
    rw [hparts]
    rfl
  case entailmentDone =>
    rfl
  case requires hne hcomma hkeyword hgroup _ _ ih ih' =>
    simp only [run, extractEntailmentRhs, List.isEmpty_iff, hne, if_false, hcomma, hkeyword,
      hgroup, bind_assoc] at hfinish ⊢
    obtain ⟨hpre, _⟩ := run_assertion_iff.mp
      (@ih fuel (Stop.bind_pure_ne_outOfFuel hfinish))
    rw [hpre] at hfinish ⊢
    exact ih' hfinish
  case ensures hne hcomma hkeyword hkeyword' hgroup _ _ ih ih' =>
    simp only [run, extractEntailmentRhs, List.isEmpty_iff, hne, if_false, hcomma, hkeyword,
      hkeyword', hgroup, bind_assoc] at hfinish ⊢
    obtain ⟨hpost, _⟩ := run_assertion_iff.mp
      (@ih fuel (Stop.bind_pure_ne_outOfFuel hfinish))
    rw [hpost] at hfinish ⊢
    exact ih' hfinish
  case paren hgroup _ ih =>
    simp only [run, parsePrimary, hgroup] at hfinish ⊢
    obtain ⟨hbody, _⟩ := run_assertion_iff.mp
      (@ih fuel (Stop.bind_pure_ne_outOfFuel hfinish))
    rw [hbody]
    rfl
  case forAll hgroup hkeyword hgroup' _ ih =>
    simp only [run, parsePrimary, hgroup, hkeyword, hgroup'] at hfinish ⊢
    obtain ⟨hbody, _⟩ := run_quantifierRhs_iff.mp
      (@ih fuel (Stop.bind_pure_ne_outOfFuel hfinish))
    rw [hbody]
    rfl
  case exist hgroup hkeyword hkeyword' hgroup' _ ih =>
    simp only [run, parsePrimary, hgroup, hkeyword, hkeyword', hgroup'] at hfinish ⊢
    obtain ⟨hbody, _⟩ := run_quantifierRhs_iff.mp
      (@ih fuel (Stop.bind_pure_ne_outOfFuel hfinish))
    rw [hbody]
    rfl
  case quantifierRhs hvars _ htriggers ih =>
    simp only [run, extractQuantifierRhs, hvars, ok_bind] at hfinish ⊢
    have hbody : parsePrusti syn fuel _ = _ := ih fun h => hfinish (by rw [run] at h; rw [h]; rfl)
    simp only [hbody, ok_bind, htriggers]
    rfl

end Run

/-- A parser that finishes returns exactly what has a derivation. -/
theorem run_eq_ok_iff {fuel : Nat} {goal : Goal E T} {rest : TokenStream}
    (hfinish : run syn fuel goal tokens ≠ .error .outOfFuel) :
    run syn fuel goal tokens = .ok (result, rest) ↔ Parses syn goal tokens result rest :=
  ⟨parses_of_run fuel goal tokens result rest, fun h => run_of_parses h hfinish⟩

theorem parsePrusti_eq_ok_iff {fuel : Nat} {rest : TokenStream}
    (hfuel : 6 * TokenTree.streamSize tokens + 4 ≤ fuel) :
    parsePrusti syn fuel tokens = .ok (result, rest) ↔ Parses syn .prusti tokens result rest := by
  have hfinish : run syn fuel .prusti tokens ≠ .error .outOfFuel :=
    ((finishes syn fuel).2.1 tokens hfuel).1
  exact run_eq_ok_iff hfinish

theorem extractAssertion_eq_ok_iff :
    extractAssertion syn (fuelFor tokens) tokens = .ok result ↔
      Parses syn .assertion tokens result [] := by
  have hfinish : run syn (fuelFor tokens) .assertion tokens ≠ .error .outOfFuel := by
    refine Stop.bind_ne_outOfFuel ((finishes syn _).1 tokens le_rfl) ?_
    intro assertion _ heq
    cases heq
  rw [← run_eq_ok_iff hfinish, run_assertion_iff, and_iff_left rfl]

namespace Parses

variable {tokens rest stream : TokenStream} {result : AssertionWithoutId E T}

theorem of_assertion (h : Parses syn .assertion tokens result rest) (hne : tokens ≠ []) :
    containsBothAndOr tokens = false ∧ Parses syn .prusti tokens result [] := by
  cases h with
  | empty => exact absurd rfl hne
  | assertion _ hunambiguous h => exact ⟨hunambiguous, h⟩

theorem of_primary (h : Parses syn .entailment tokens result rest)
    (hprimary : startsPrimary tokens = true) :
    Parses syn .primary tokens result rest := by
  cases h with
  | primary _ h => exact h
  | expr hprimary' =>
    rw [hprimary] at hprimary'
    cases hprimary'
  | entailment hprimary' =>
    rw [hprimary] at hprimary'
    cases hprimary'

/-- Where the parser expects a Rust expression. -/
theorem of_not_primary (h : Parses syn .entailment tokens result rest)
    (hprimary : startsPrimary tokens = false) :
    ∃ lhs mid, parseRustUntil syn "," tokens = .ok (lhs, mid) ∧
      (consumeOperator "|=" mid = none → result = .expr lhs ∧ rest = mid) ∧
      ∀ mid', consumeOperator "|=" mid = some mid' →
        ∃ vars mid'' stream, parseEntailmentVars syn mid' = .ok (vars, mid'') ∧
          consumeGroup .bracket mid'' = some (stream, rest) ∧
            Parses syn (.entailmentRhs lhs vars true [] []) stream result [] := by
  cases h with
  | primary hprimary' =>
    rw [hprimary] at hprimary'
    cases hprimary'
  | expr _ hlhs hrest =>
    refine ⟨_, _, hlhs, fun _ => ⟨rfl, rfl⟩, fun mid' hsome => ?_⟩
    rw [hrest] at hsome
    cases hsome
  | entailment _ hlhs hrest hvars hgroup h =>
    refine ⟨_, _, hlhs, fun hnone => ?_, fun mid' hsome => ?_⟩
    · rw [hrest] at hnone
      cases hnone
    · rw [hrest] at hsome
      cases hsome
      exact ⟨_, _, _, hvars, hgroup, h⟩

theorem of_group (h : Parses syn .primary (.group .parenthesis stream :: tokens) result rest) :
    rest = tokens ∧ Parses syn .assertion stream result [] := by
  cases h with
  | paren hgroup h =>
    cases hgroup
    exact ⟨rfl, h⟩
  | forAll hgroup => cases hgroup
  | exist hgroup => cases hgroup

theorem of_keyword {exists_ : Bool}
    (h : Parses syn .primary (.ident (if exists_ then "exists" else "forall") ::
      .group .parenthesis stream :: tokens) result rest) :
    rest = tokens ∧ Parses syn (.quantifierRhs exists_) stream result [] := by
  cases h with
  | paren hgroup => cases hgroup
  | forAll _ hkeyword hgroup h =>
    cases exists_ with
    | false =>
      cases hkeyword
      cases hgroup
      exact ⟨rfl, h⟩
    | true => cases hkeyword
  | exist _ hkeyword hkeyword' hgroup h =>
    cases exists_ with
    | false => cases hkeyword
    | true =>
      cases hkeyword'
      cases hgroup
      exact ⟨rfl, h⟩

/-- Nothing but a group follows the keyword of a quantifier. -/
theorem of_peekKeyword {name : String}
    (h : Parses syn .primary (.ident name :: tokens) result rest) :
    ∃ stream, tokens = .group .parenthesis stream :: rest := by
  cases h with
  | paren hgroup => cases hgroup
  | forAll _ hkeyword hgroup =>
    rw [consumeKeyword_eq_some_iff] at hkeyword
    cases hkeyword
    exact ⟨_, consumeGroup_eq_some_iff.mp hgroup⟩
  | exist _ _ hkeyword hgroup =>
    rw [consumeKeyword_eq_some_iff] at hkeyword
    cases hkeyword
    exact ⟨_, consumeGroup_eq_some_iff.mp hgroup⟩

theorem of_clause {lhs : ExpressionWithoutId E} {vars : List (Arg T)} {first ensures : Bool}
    {pres posts : List (AssertionWithoutId E T)}
    (h : Parses syn (.entailmentRhs lhs vars first pres posts)
      ((if first then [] else operatorTokens ",") ++
        .ident (if ensures then "ensures" else "requires") ::
          .group .parenthesis stream :: tokens) result rest) :
    ∃ side, Parses syn .assertion stream side [] ∧
      Parses syn (.entailmentRhs lhs vars false (if ensures then pres else pres ++ [side])
        (if ensures then posts ++ [side] else posts)) tokens result [] := by
  generalize htokens : (if first then [] else operatorTokens ",") ++
    .ident (if ensures then "ensures" else "requires") ::
      .group .parenthesis stream :: tokens = tokens' at h
  have hcomma' : (if first then some tokens' else consumeOperator "," tokens') =
      some (.ident (if ensures then "ensures" else "requires") ::
        .group .parenthesis stream :: tokens) := by
    subst htokens
    cases first <;> rfl
  cases h with
  | entailmentDone => cases first <;> cases htokens
  | requires _ hcomma hkeyword hgroup h h' =>
    rw [hcomma'] at hcomma
    cases hcomma
    cases ensures with
    | true => cases hkeyword
    | false =>
      cases hkeyword
      cases hgroup
      exact ⟨_, h, h'⟩
  | ensures _ hcomma hkeyword hkeyword' hgroup h h' =>
    rw [hcomma'] at hcomma
    cases hcomma
    cases ensures with
    | false => cases hkeyword
    | true =>
      cases hkeyword'
      cases hgroup
      exact ⟨_, h, h'⟩

theorem of_quantifierRhs {exists_ : Bool} {vars : List (Arg T)}
    (h : Parses syn (.quantifierRhs exists_) tokens result rest)
    (hvars : parseQuantifierVars syn tokens = .ok (vars, stream)) :
    ∃ body last triggers, Parses syn .prusti stream body last ∧
      parseTriggers syn last = .ok triggers ∧ result = quantifier exists_ vars triggers body := by
  cases h with
  | quantifierRhs hvars' h htriggers =>
    rw [hvars] at hvars'
    cases hvars'
    exact ⟨_, _, _, h, htriggers, rfl⟩

theorem of_conjunction (h : Parses syn .conjunction tokens result rest) :
    ∃ conjunct mid conjuncts, Parses syn .entailment tokens conjunct mid ∧
      Parses syn (.conjuncts [conjunct]) mid (.and conjuncts) rest ∧
        result = ofConjuncts conjuncts := by
  cases h with
  | conjunction h h' => exact ⟨_, _, _, h, h', rfl⟩

theorem of_conjuncts {before conjuncts : List (AssertionWithoutId E T)}
    (h : Parses syn (.conjuncts before) tokens (.and conjuncts) rest) :
    (consumeOperator "&&" tokens = none ∧ conjuncts = before ∧ rest = tokens) ∨
      ∃ tokens' conjunct mid, consumeOperator "&&" tokens = some tokens' ∧
        Parses syn .entailment tokens' conjunct mid ∧
          Parses syn (.conjuncts (before ++ [conjunct])) mid (.and conjuncts) rest := by
  cases h with
  | done h => exact .inl ⟨h, rfl, rfl⟩
  | next hrest h h' => exact .inr ⟨_, _, _, hrest, h, h'⟩

theorem of_prusti (h : Parses syn .prusti tokens result rest) :
    ∃ lhs mid, Parses syn .conjunction tokens lhs mid ∧
      ((consumeOperator "==>" mid = none ∧ result = lhs ∧ rest = mid) ∨
        ∃ mid' rhs, consumeOperator "==>" mid = some mid' ∧
          Parses syn .prusti mid' rhs rest ∧ result = .implies lhs rhs) := by
  cases h with
  | prusti h hrest => exact ⟨_, _, h, .inl ⟨hrest, rfl, rfl⟩⟩
  | implies h hrest h' => exact ⟨_, _, h, .inr ⟨_, _, hrest, h', rfl⟩⟩

end Parses

end Prusti.Specs.Preparser

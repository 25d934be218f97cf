/-
Printed pledges are read back, unless an implication is taken for the end of a reference
or a parenthesised assertion ends the left side.
-/
import Prusti.Specs.RoundTrip

namespace Prusti.Specs

open Prusti.Lib Preparser

variable {E T : Type} {syn : Syn E T}

section Entry

variable {tokens : TokenStream} {pledge : PledgeWithoutId E T}

theorem leaves_parseReference (tokens : TokenStream) :
    Leaves (TokenTree.streamSize tokens) (parseReference syn tokens) := by
  unfold parseReference
  split
  · refine .bind (leaves_parseRustUntil syn "=>" tokens) fun reference rest hrest => ?_
    refine .ok _ (le_trans ?_ hrest)
    cases h : consumeOperator "=>" rest with
    | none => exact le_rfl
    | some rest' => exact (streamSize_consumeOperator h (by decide)).le
  · exact .ok _ le_rfl

theorem parsePrusti_of_parseReference {reference : Option (ExpressionWithoutId E)}
    {mid rest : TokenStream} {assertion : AssertionWithoutId E T}
    (h : parseReference syn tokens = .ok (reference, mid)) :
    parsePrusti syn (fuelFor tokens) mid = .ok (assertion, rest) ↔
      Parses syn .prusti mid assertion rest := by
  have hsize := (leaves_parseReference tokens).2 _ _ h
  refine parsePrusti_eq_ok_iff ?_
  rw [fuelFor]
  omega

/-- What the parser of a pledge without a left side returns. -/
theorem extractPledgeRhsOnly_eq_ok_iff :
    extractPledgeRhsOnly syn (fuelFor tokens) tokens = .ok pledge ↔
      ∃ reference mid rhs, parseReference syn tokens = .ok (reference, mid) ∧
        Parses syn .prusti mid rhs [] ∧ pledge = ⟨reference, none, rhs⟩ := by
  simp only [extractPledgeRhsOnly, parsePledgeAssertionOnly, bind_eq_ok_iff,
    pure_eq_ok_iff]
  constructor
  · rintro ⟨_, ⟨⟨reference, mid⟩, hreference, ⟨rhs, rest⟩, hrhs, rfl⟩, h⟩
    dsimp only at h hrhs
    split at h
    · next hrest =>
        rw [List.isEmpty_iff] at hrest
        subst hrest
        rw [parsePrusti_of_parseReference hreference] at hrhs
        cases h
        exact ⟨reference, mid, rhs, hreference, hrhs, rfl⟩
    · cases h
  · rintro ⟨reference, mid, rhs, hreference, hrhs, rfl⟩
    rw [← parsePrusti_of_parseReference hreference] at hrhs
    exact ⟨_, ⟨_, hreference, _, hrhs, rfl⟩, rfl⟩

/-- What the parser of a pledge with a left side returns. -/
theorem extractPledge_eq_ok_iff :
    extractPledge syn (fuelFor tokens) tokens = .ok pledge ↔
      ∃ reference mid lhs mid' mid'' rhs, parseReference syn tokens = .ok (reference, mid) ∧
        Parses syn .prusti mid lhs mid' ∧ consumeOperator "," mid' = some mid'' ∧
          Parses syn .prusti mid'' rhs [] ∧ pledge = ⟨reference, some lhs, rhs⟩ := by
  have hsecond : ∀ {reference mid lhs mid' mid'' rhs rest},
      parseReference syn tokens = .ok (reference, mid) →
      parsePrusti syn (fuelFor tokens) mid = .ok (lhs, mid') →
      consumeOperator "," mid' = some mid'' →
      (parsePrusti syn (fuelFor tokens) mid'' = .ok (rhs, rest) ↔
        Parses syn .prusti mid'' rhs rest) := by
    intro reference mid lhs mid' mid'' rhs rest hreference hlhs hcomma
    have hmid := (leaves_parseReference tokens).2 _ _ hreference
    have hmid' := ((finishes syn (fuelFor tokens)).2.1 mid (by rw [fuelFor]; omega)).2 _ _ hlhs
    have hmid'' := streamSize_consumeOperator hcomma (by decide)
    refine parsePrusti_eq_ok_iff ?_
    rw [fuelFor]
    omega
  simp only [extractPledge, parsePledge, parsePledgeAssertionOnly, bind_eq_ok_iff,
    pure_eq_ok_iff]
  constructor
  · rintro ⟨⟨result, rest⟩, ⟨_, ⟨⟨reference, mid⟩, hreference, ⟨lhs, mid'⟩, hlhs, rfl⟩, hrhs⟩, h⟩
    dsimp only at h hrhs hlhs
    split at hrhs
    · cases hrhs
    · next mid'' hcomma =>
        obtain ⟨⟨rhs, last⟩, hsides, heq⟩ := exists_of_bind_eq_ok hrhs
        cases heq
        split at h
        · next hlast =>
            rw [List.isEmpty_iff] at hlast
            cases h
            dsimp only at hlast
            rw [hlast, hsecond hreference hlhs hcomma] at hsides
            rw [parsePrusti_of_parseReference hreference] at hlhs
            exact ⟨reference, mid, lhs, mid', mid'', rhs, hreference, hlhs, hcomma, hsides, rfl⟩
        · cases h
  · rintro ⟨reference, mid, lhs, mid', mid'', rhs, hreference, hlhs, hcomma, hrhs, rfl⟩
    rw [← parsePrusti_of_parseReference hreference] at hlhs
    rw [← hsecond hreference hlhs hcomma] at hrhs
    refine ⟨(⟨reference, some lhs, rhs⟩, []), ⟨_, ⟨_, hreference, _, hlhs, rfl⟩, ?_⟩, rfl⟩
    dsimp only
    rw [hcomma]
    exact (bind_eq_ok_iff _ _ _).mpr ⟨_, hrhs, rfl⟩

end Entry

/-- The reference of a pledge. -/
structure Reference (syn : Syn E T) where
  tokens : TokenStream
  expr : E
  parses : syn.parseExpr tokens = .ok expr

/-- A pledge with or without a reference, and with or without a left side. -/
structure PrintedPledge (syn : Syn E T) where
  reference : Option (Reference syn)
  lhs : Option (Formula syn)
  rhs : Formula syn

namespace PrintedPledge

def printReference : Option (Reference syn) → TokenStream
  | none => []
  | some reference => reference.tokens ++ operatorTokens "=>"

def printSides (pledge : PrintedPledge syn) : TokenStream :=
  match pledge.lhs with
  | none => pledge.rhs.print
  | some lhs => lhs.print ++ (operatorTokens "," ++ pledge.rhs.print)

/-- `[reference =>] [lhs,] rhs`. -/
def print (pledge : PrintedPledge syn) : TokenStream :=
  printReference pledge.reference ++ pledge.printSides

def pledge (pledge : PrintedPledge syn) : PledgeWithoutId E T where
  reference := pledge.reference.map fun reference => expression reference.expr
  lhs := pledge.lhs.map Formula.assertion
  rhs := pledge.rhs.assertion

/-- The entry point for the pledge. -/
def extract (pledge : PrintedPledge syn) : Outcome (PledgeWithoutId E T) :=
  match pledge.lhs with
  | none => extractPledgeRhsOnly syn (fuelFor pledge.print) pledge.print
  | some _ => extractPledge syn (fuelFor pledge.print) pledge.print

/-- The parser gives back the reference and both sides. -/
def RoundTrips (pledge : PrintedPledge syn) : Prop := pledge.extract = .ok pledge.pledge

/-- The operators that end a reference. -/
def referenceEnds : List String := ["|=", "&&", "==>", "=>"]

/-- A reference contains no operator of the assertions; where there is none, nothing
looks like the end of one. -/
def ReferenceReadable : Option (Reference syn) → TokenStream → Prop
  | none, sides => containsOperator sides "=>" = false
  | some reference, _ =>
    (∀ operator ∈ referenceEnds, containsOperator reference.tokens operator = false) ∧
      containsOperatorRecursive "==>" reference.tokens = false

/-- Every part is readable where it stands. -/
def Readable (pledge : PrintedPledge syn) : Prop :=
  ReferenceReadable pledge.reference pledge.printSides ∧
    (∀ lhs ∈ pledge.lhs, lhs.Readable true) ∧ pledge.rhs.Readable false

end PrintedPledge

theorem stop_of_popUntil_eq {stop : TokenStream → Bool} {front rest back : TokenStream}
    (h : (popUntil stop (front ++ rest)).1 = front) (hback : back <:+ front)
    (hne : back ≠ []) : stop (back ++ rest) = false := by
  induction front with
  | nil => exact absurd (List.suffix_nil.mp hback) hne
  | cons token front ih =>
    rw [List.cons_append, popUntil] at h
    split at h
    · cases h
    · next hstop =>
        rcases List.suffix_cons_iff.mp hback with rfl | hback
        · simpa using hstop
        · exact ih (List.cons.inj h).2 hback

namespace Reference

variable (reference : Reference syn) (rest : TokenStream)

theorem containsOperator_print :
    containsOperator (reference.tokens ++ operatorTokens "=>" ++ rest) "=>" = true := by
  rw [containsOperator_iff (by decide), List.append_assoc]
  exact ⟨reference.tokens, rest, by rw [List.append_assoc]⟩

/-- The reference ends where it was meant to end if and only if no operator of the
assertions stands in it. -/
theorem popUntil_print_iff :
    (popUntil (endsRust "=>") (reference.tokens ++ (operatorTokens "=>" ++ rest))).1 =
        reference.tokens ↔
      ∀ operator ∈ PrintedPledge.referenceEnds,
        containsOperator reference.tokens operator = false := by
  constructor
  · intro h operator hmem
    have hoperator : operator.toList ≠ [] := by
      revert operator
      decide
    rw [← Bool.not_eq_true, containsOperator_iff hoperator]
    intro hinside
    obtain ⟨back, hbegins, hback⟩ := List.infix_iff_prefix_suffix.mp hinside
    have hne : back ≠ [] := by
      rintro rfl
      exact operatorTokens_ne_nil hoperator (List.prefix_nil.mp hbegins)
    have hstop := stop_of_popUntil_eq h hback hne
    have hpeek : peekOperator operator (back ++ (operatorTokens "=>" ++ rest)) = true :=
      peekOperator_iff.mpr (hbegins.trans (List.prefix_append _ _))
    simp only [endsRust, Bool.or_eq_false_iff] at hstop
    simp only [PrintedPledge.referenceEnds, List.mem_cons, List.not_mem_nil, or_false] at hmem
    rcases hmem with rfl | rfl | rfl | rfl <;> simp_all
  · intro h
    exact congrArg Prod.fst
      (popUntil_plain (syn.endsOperand_parseExpr reference.parses) (by decide) h (.inr rfl))

theorem tokens_ne_nil : reference.tokens ≠ [] := (syn.endsOperand_parseExpr reference.parses).ne_nil

/-- The reference is read back. -/
theorem parseReference_iff {last : TokenStream} :
    parseReference syn (reference.tokens ++ operatorTokens "=>" ++ rest) =
        .ok (some (expression reference.expr), last) ↔
      ((∀ operator ∈ PrintedPledge.referenceEnds,
          containsOperator reference.tokens operator = false) ∧
        containsOperatorRecursive "==>" reference.tokens = false) ∧ last = rest := by
  have happend := popUntil_append (endsRust "=>")
    (reference.tokens ++ (operatorTokens "=>" ++ rest))
  rw [parseReference, if_pos (reference.containsOperator_print rest), List.append_assoc,
    ← popUntil_print_iff reference rest, parseRustUntil]
  generalize popUntil (endsRust "=>") (reference.tokens ++ (operatorTokens "=>" ++ rest)) =
    popped at happend ⊢
  obtain ⟨stream, mid⟩ := popped
  dsimp only at happend ⊢
  constructor
  · intro h
    split at h
    · cases h
    · next hrec =>
        split at h
        · cases h
        · simp only [bind_eq_ok_iff, Stop.callback_eq_ok_iff, pure_eq_ok_iff] at h
          obtain ⟨_, ⟨expr, hexpr, rfl⟩, h⟩ := h
          cases h
          have hstream := syn.toTokens_parseExpr hexpr
          rw [syn.toTokens_parseExpr reference.parses] at hstream
          subst hstream
          rw [List.append_cancel_left_eq] at happend
          subst happend
          exact ⟨⟨rfl, by simpa using hrec⟩, rfl⟩
  · rintro ⟨⟨rfl, hrec⟩, rfl⟩
    rw [List.append_cancel_left_eq] at happend
    subst happend
    rw [if_neg (by simpa using hrec), if_neg (by simpa using reference.tokens_ne_nil),
      reference.parses]
    rfl

end Reference

theorem parseReference_print_iff (reference : Option (Reference syn)) {sides last : TokenStream} :
    parseReference syn (PrintedPledge.printReference reference ++ sides) =
        .ok (reference.map fun reference => expression reference.expr, last) ↔
      PrintedPledge.ReferenceReadable reference sides ∧ last = sides := by
  cases reference with
  | some reference => exact reference.parseReference_iff sides
  | none =>
    change parseReference syn sides = .ok (none, last) ↔
      containsOperator sides "=>" = false ∧ last = sides
    rw [parseReference]
    split
    · next h =>
        simp [h]
    · next h =>
        rw [Bool.not_eq_true] at h
        simp [h, eq_comm]

/-- A printed assertion is read as it was meant if and only if it is readable. -/
theorem Formula.parses_iff (formula : Formula syn) {beforeComma : Bool} {rest last : TokenStream}
    (hrest : Follower beforeComma rest) (hdone : consumeOperator "&&" rest = none)
    (hdone' : consumeOperator "==>" rest = none) :
    Parses syn .prusti (formula.print ++ rest) formula.assertion last ↔
      formula.Readable beforeComma ∧ last = rest := by
  constructor
  · intro h
    exact (formula.readBack hrest hdone hdone' h).of_eq hrest.ends (not_misread h trivial) rfl
  · rintro ⟨hread, rfl⟩
    exact formula.parses hread hrest hdone hdone'

/-- A printed pledge is read back if and only if every part of it is readable where it
stands. -/
theorem printedPledge_roundTrips_iff (pledge : PrintedPledge syn) :
    pledge.RoundTrips ↔ pledge.Readable := by
  obtain ⟨reference, lhs, rhs⟩ := pledge
  have hrhs : Parses syn .prusti rhs.print rhs.assertion [] ↔ rhs.Readable false := by
    have h : Parses syn .prusti (rhs.print ++ []) rhs.assertion [] ↔ _ :=
      rhs.parses_iff .nil rfl rfl
    rwa [List.append_nil, and_iff_left rfl] at h
  cases lhs with
  | none =>
    have hentry : extractPledgeRhsOnly syn
        (fuelFor (PrintedPledge.printReference reference ++ rhs.print))
        (PrintedPledge.printReference reference ++ rhs.print) =
          .ok (PrintedPledge.pledge ⟨reference, none, rhs⟩) ↔ _ :=
      extractPledgeRhsOnly_eq_ok_iff
    refine hentry.trans ⟨?_, ?_⟩
    · rintro ⟨reference', mid, rhs', hreference, hparse, heq⟩
      cases heq
      obtain ⟨hread, rfl⟩ := (parseReference_print_iff reference).mp hreference
      exact ⟨hread, nofun, hrhs.mp hparse⟩
    · rintro ⟨hread, _, hreadRhs⟩
      exact ⟨_, _, _, (parseReference_print_iff reference).mpr ⟨hread, rfl⟩, hrhs.mpr hreadRhs, rfl⟩
  | some lhs =>
    have hlhs : ∀ last, Parses syn .prusti (lhs.print ++ (operatorTokens "," ++ rhs.print))
        lhs.assertion last ↔ _ := fun _ => lhs.parses_iff (.comma rhs.print) rfl rfl
    have hentry : extractPledge syn
        (fuelFor (PrintedPledge.printReference reference ++
          (lhs.print ++ (operatorTokens "," ++ rhs.print))))
        (PrintedPledge.printReference reference ++
          (lhs.print ++ (operatorTokens "," ++ rhs.print))) =
          .ok (PrintedPledge.pledge ⟨reference, some lhs, rhs⟩) ↔ _ :=
      extractPledge_eq_ok_iff
    refine hentry.trans ⟨?_, ?_⟩
    · rintro ⟨reference', mid, lhs', mid', mid'', rhs', hreference, hparse, hcomma, hparse', heq⟩
      cases heq
      obtain ⟨hread, rfl⟩ := (parseReference_print_iff reference).mp hreference
      obtain ⟨hreadLhs, rfl⟩ := (hlhs _).mp hparse
      cases hcomma
      refine ⟨hread, ?_, hrhs.mp hparse'⟩
      rintro _ ⟨⟩
      exact hreadLhs
    · rintro ⟨hread, hreadLhs, hreadRhs⟩
      exact ⟨_, _, _, _, _, _, (parseReference_print_iff reference).mpr ⟨hread, rfl⟩,
        (hlhs _).mpr ⟨hreadLhs lhs rfl, rfl⟩, consumeOperator_eq_some_iff.mpr rfl,
        hrhs.mpr hreadRhs, rfl⟩

namespace Witness

/-- `a ==> b`, without a reference and without a left side. -/
def implicationPledge : PrintedPledge tokenSyn where
  reference := none
  lhs := none
  rhs := .implies (.single (.expr (nameAtom "a")))
    (.conj (.single (.expr (nameAtom "b"))))

theorem implicationPledge_not_roundTrips : ¬ implicationPledge.RoundTrips := by
  intro h
  have herror : implicationPledge.extract = errorExpected "expression" := rfl
  rw [PrintedPledge.RoundTrips, herror] at h
  cases h

/-- `r => (a ==> b), c`: the other way in which it goes wrong. -/
example : extractPledge tokenSyn 100 ([.ident "r"] ++ operatorTokens "=>" ++
    [.group .parenthesis ([.ident "a"] ++ operatorTokens "==>" ++ [.ident "b"])] ++
      operatorTokens "," ++ [.ident "c"]) = errorNoImplies := rfl

end Witness

end Prusti.Specs

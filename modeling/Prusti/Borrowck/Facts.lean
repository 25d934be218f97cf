/-
Loans and the facts about which loan reborrows which, derived from the facts of the
borrow checker.
-/
import Prusti.Lib.Closure

namespace Prusti.Borrowck

open Prusti.Lib

abbrev Loan := Nat
abbrev Region := Nat
abbrev PointIndex := Nat

namespace AdditionalFacts

/-- A loan reborrows the loans that its region restricts at the point where it is made. -/
def joinReborrows (borrowRegion : List (Region × Loan × PointIndex))
    (restricts : List (PointIndex × Region × Loan)) : Finset (Loan × Loan) :=
  (borrowRegion.flatMap fun borrowed =>
    (restricts.filter fun restricted =>
      (borrowed.2.2, borrowed.1) = (restricted.1, restricted.2.1)).map fun restricted =>
        (borrowed.2.1, restricted.2.2)).toFinset

/-- Reborrows between two loans of one incompatibility set are removed. -/
def loadReborrows (restricts : List (PointIndex × Region × Loan))
    (borrowRegion : List (Region × Loan × PointIndex)) (incompatibleLoans : List (List Loan)) :
    Finset (Loan × Loan) :=
  (joinReborrows borrowRegion restricts).filter fun pair =>
    ¬ ∃ loans ∈ incompatibleLoans, pair.1 ∈ loans ∧ pair.2 ∈ loans

/-- The rules are iterated until nothing changes. -/
def transitiveClosure (reborrows : Finset (Loan × Loan)) : Finset (Loan × Loan) :=
  closureRounds (endPairs reborrows).card reborrows

/-- Leave out the pairs with a loan in between. -/
def deriveNontransitive (reborrows : Finset (Loan × Loan)) : Finset (Loan × Loan) :=
  reborrows.filter fun pair =>
    ¬ ∃ other ∈ reborrows, other.2 = pair.2 ∧ (pair.1, other.1) ∈ reborrows

end AdditionalFacts

/-- Which loans reborrow which others, with and without others in between. -/
structure AdditionalFacts where
  reborrows : Finset (Loan × Loan)
  reborrowsDirect : Finset (Loan × Loan)

open AdditionalFacts in
/-- The restrictions are those of the borrow checker and those of zombie loans. -/
def AdditionalFacts.new (restricts : List (PointIndex × Region × Loan))
    (borrowRegion : List (Region × Loan × PointIndex)) (incompatibleLoans : List (List Loan)) :
    AdditionalFacts :=
  let reborrows := loadReborrows restricts borrowRegion incompatibleLoans
  let reborrows := transitiveClosure reborrows
  let reborrows := reborrows.filter fun pair => pair.1 ≠ pair.2
  { reborrows, reborrowsDirect := deriveNontransitive reborrows }

/-- No loan reborrows itself by way of others. -/
def AcyclicReborrows (reborrows : Finset (Loan × Loan)) : Prop :=
  ∀ loan, ¬ Relation.TransGen (InPairs reborrows) loan loan

namespace AdditionalFacts

section Reborrows

variable {restricts : List (PointIndex × Region × Loan)}
  {borrowRegion : List (Region × Loan × PointIndex)} {incompatibleLoans : List (List Loan)}

theorem mem_transitiveClosure_iff {reborrows : Finset (Loan × Loan)} {loan loan' : Loan} :
    (loan, loan') ∈ transitiveClosure reborrows ↔
      Relation.TransGen (InPairs reborrows) loan loan' :=
  mem_closureRounds_iff le_rfl

theorem mem_deriveNontransitive_iff {reborrows : Finset (Loan × Loan)} {loan loan' : Loan} :
    (loan, loan') ∈ deriveNontransitive reborrows ↔ (loan, loan') ∈ reborrows ∧
      ∀ between, (loan, between) ∈ reborrows → (between, loan') ∉ reborrows := by
  rw [deriveNontransitive, Finset.mem_filter]
  refine and_congr_right fun _ => ⟨?_, ?_⟩
  · exact fun hnone between hfirst hsecond => hnone ⟨(between, loan'), hsecond, rfl, hfirst⟩
  · rintro hnone ⟨⟨between, target⟩, hsecond, rfl, hfirst⟩
    exact hnone between hfirst hsecond

theorem reborrowsDirect_subset :
    (AdditionalFacts.new restricts borrowRegion incompatibleLoans).reborrowsDirect ⊆
      (AdditionalFacts.new restricts borrowRegion incompatibleLoans).reborrows :=
  Finset.filter_subset _ _

/-- The reborrows are transitive, if there is no cycle. -/
theorem mem_reborrows_trans {first second third : Loan} (hacyclic : AcyclicReborrows
      (AdditionalFacts.new restricts borrowRegion incompatibleLoans).reborrows)
    (h : (first, second) ∈ (AdditionalFacts.new restricts borrowRegion incompatibleLoans).reborrows)
    (h' : (second, third) ∈
      (AdditionalFacts.new restricts borrowRegion incompatibleLoans).reborrows) :
    (first, third) ∈ (AdditionalFacts.new restricts borrowRegion incompatibleLoans).reborrows := by
  have hclosed := (mem_transitiveClosure_iff.mp (Finset.mem_filter.mp h).1).trans
    (mem_transitiveClosure_iff.mp (Finset.mem_filter.mp h').1)
  refine Finset.mem_filter.mpr ⟨mem_transitiveClosure_iff.mpr hclosed, ?_⟩
  intro heq
  obtain rfl : first = third := heq
  exact hacyclic first (.tail (.single h) h')

end Reborrows

section Reduction

open Relation

/-- The smallest relations, by inclusion, with the transitive closure of a relation. -/
structure IsTransitiveReduction (kept reborrows : Finset (Loan × Loan)) : Prop where
  closure_iff : ∀ loan loan',
    TransGen (InPairs kept) loan loan' ↔ TransGen (InPairs reborrows) loan loan'
  minimal : ∀ fewer ⊂ kept, ¬ ∀ loan loan',
    TransGen (InPairs fewer) loan loan' ↔ TransGen (InPairs reborrows) loan loan'

variable {reborrows closed : Finset (Loan × Loan)}

/-- The pairs that are kept are the direct ones of the closure. -/
theorem inPairs_deriveNontransitive_iff
    (hclosed : ∀ loan loan', (loan, loan') ∈ closed ↔ TransGen (InPairs reborrows) loan loan')
    {loan loan' : Loan} :
    InPairs (deriveNontransitive closed) loan loan' ↔
      Direct (TransGen (InPairs reborrows)) loan loan' := by
  rw [InPairs, mem_deriveNontransitive_iff, Direct]
  simp only [hclosed]

/-- A loan in between is the source of a pair. -/
theorem finite_between (loan loan' : Loan) :
    (Between (TransGen (InPairs reborrows)) loan loan').Finite := by
  refine (reborrows.image Prod.fst).finite_toSet.subset fun between hbetween => ?_
  obtain ⟨next, hstep, -⟩ := TransGen.head'_iff.mp hbetween.2
  exact Finset.mem_coe.mpr (Finset.mem_image_of_mem Prod.fst hstep)

/-- Without cycles, leaving out the pairs with a loan in between is a reduction. -/
theorem isTransitiveReduction_of_closed (hacyclic : AcyclicReborrows reborrows)
    (hclosed : ∀ loan loan', (loan, loan') ∈ closed ↔ TransGen (InPairs reborrows) loan loan') :
    IsTransitiveReduction (deriveNontransitive closed) reborrows := by
  have horder : IsStrictOrder Loan (TransGen (InPairs reborrows)) :=
    { irrefl := hacyclic, trans := fun _ _ _ => TransGen.trans }
  have hdirect : InPairs (deriveNontransitive closed) = Direct (TransGen (InPairs reborrows)) := by
    funext loan loan'
    exact propext (inPairs_deriveNontransitive_iff hclosed)
  refine ⟨fun loan loan' => ?_, fun fewer hfewer hsame => hfewer.2 ?_⟩
  · rw [hdirect]
    exact transGen_direct_iff finite_between
  · rintro ⟨loan, loan'⟩ hkept
    exact of_direct hsame ((inPairs_deriveNontransitive_iff hclosed).mp hkept)

/-- The direct reborrows of the closure are a transitive reduction. -/
theorem deriveNontransitive_isTransitiveReduction (hacyclic : AcyclicReborrows reborrows) :
    IsTransitiveReduction (deriveNontransitive (transitiveClosure reborrows)) reborrows :=
  isTransitiveReduction_of_closed hacyclic fun _ _ => mem_transitiveClosure_iff

end Reduction

end AdditionalFacts

namespace Witness

open AdditionalFacts

/-- Loan 3 reborrows 2, which reborrows 1. -/
def chainReborrows : Finset (Loan × Loan) := {(3, 2), (2, 1), (3, 1)}

theorem lt_of_mem_chainReborrows : ∀ pair ∈ chainReborrows, pair.2 < pair.1 := by
  decide

theorem chainReborrows_acyclic : AcyclicReborrows chainReborrows := by
  have hdecreases : ∀ {loan loan' : Loan},
      Relation.TransGen (InPairs chainReborrows) loan loan' → loan' < loan := by
    intro loan loan' hpath
    induction hpath with
    | single hstep => exact lt_of_mem_chainReborrows _ hstep
    | tail _ hstep ih => exact (lt_of_mem_chainReborrows _ hstep).trans ih
  exact fun loan hpath => Nat.lt_irrefl loan (hdecreases hpath)

theorem chainReborrows_isTransitiveReduction :
    IsTransitiveReduction (deriveNontransitive (transitiveClosure chainReborrows))
      chainReborrows :=
  deriveNontransitive_isTransitiveReduction chainReborrows_acyclic

end Witness

end Prusti.Borrowck

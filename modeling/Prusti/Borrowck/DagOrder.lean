/-
The nodes of the reborrowing DAG: every loan of the list that is no placeholder has one,
and a loan comes before those that it reborrows through other loans of the list.
-/
import Prusti.Borrowck.LoanSorting

namespace Prusti.Borrowck

open Prusti.Lib Prusti.Mir

universe u

section Chains

/-- A direct reborrow between two loans of a list. -/
def DirectIn (reborrowsDirect : Finset (Loan × Loan)) (loans : List Loan)
    (loan loan' : Loan) : Prop :=
  (loan, loan') ∈ reborrowsDirect ∧ loan ∈ loans ∧ loan' ∈ loans

/-- The loans between two loans. -/
def betweenLoans (reborrows : Finset (Loan × Loan)) (loan loan' : Loan) : Finset Loan :=
  (reborrows.image Prod.fst).filter fun between =>
    (loan, between) ∈ reborrows ∧ (between, loan') ∈ reborrows

variable {reborrows : Finset (Loan × Loan)} {loans : List Loan} {loan loan' between : Loan}

theorem mem_betweenLoans_iff :
    between ∈ betweenLoans reborrows loan loan' ↔
      (loan, between) ∈ reborrows ∧ (between, loan') ∈ reborrows := by
  rw [betweenLoans, Finset.mem_filter]
  exact and_iff_right_of_imp fun h => Finset.mem_image_of_mem Prod.fst h.2

/-- When all loans between two loans are listed, a chain of direct reborrows leads from one
to the other.  The induction is on the number of loans in between. -/
theorem exists_chain
    (htrans : ∀ {first second third : Loan}, (first, second) ∈ reborrows →
      (second, third) ∈ reborrows → (first, third) ∈ reborrows)
    (hacyclic : AcyclicReborrows reborrows) (hreborrows : (loan, loan') ∈ reborrows)
    (hloan : loan ∈ loans) (hloan' : loan' ∈ loans)
    (hbetween : ∀ between ∈ betweenLoans reborrows loan loan', between ∈ loans) :
    Relation.TransGen (DirectIn (AdditionalFacts.deriveNontransitive reborrows) loans)
      loan loan' := by
  generalize hcount : (betweenLoans reborrows loan loan').card = count
  induction count using Nat.strong_induction_on generalizing loan loan' with
  | _ count ih =>
    by_cases hdirect : ∀ between, (loan, between) ∈ reborrows → (between, loan') ∉ reborrows
    · have hmem := AdditionalFacts.mem_deriveNontransitive_iff.mpr ⟨hreborrows, hdirect⟩
      exact .single ⟨hmem, hloan, hloan'⟩
    · push Not at hdirect
      obtain ⟨between, hfirst, hsecond⟩ := hdirect
      have hmem : between ∈ betweenLoans reborrows loan loan' :=
        mem_betweenLoans_iff.mpr ⟨hfirst, hsecond⟩
      have hself : (between, between) ∉ reborrows := fun hself =>
        hacyclic between (.single hself)
      have hbefore : betweenLoans reborrows loan between ⊆ betweenLoans reborrows loan loan' := by
        intro other hother
        obtain ⟨hleft, hright⟩ := mem_betweenLoans_iff.mp hother
        exact mem_betweenLoans_iff.mpr ⟨hleft, htrans hright hsecond⟩
      have hafter : betweenLoans reborrows between loan' ⊆ betweenLoans reborrows loan loan' := by
        intro other hother
        obtain ⟨hleft, hright⟩ := mem_betweenLoans_iff.mp hother
        exact mem_betweenLoans_iff.mpr ⟨htrans hfirst hleft, hright⟩
      have hnotBefore : between ∉ betweenLoans reborrows loan between := fun hin =>
        hself (mem_betweenLoans_iff.mp hin).2
      have hnotAfter : between ∉ betweenLoans reborrows between loan' := fun hin =>
        hself (mem_betweenLoans_iff.mp hin).1
      refine .trans (ih _ ?_ hfirst hloan (hbetween between hmem)
        (fun other hother => hbetween other (hbefore hother)) rfl)
        (ih _ ?_ hsecond (hbetween between hmem) hloan'
          (fun other hother => hbetween other (hafter hother)) rfl)
      · rw [← hcount]
        exact Finset.card_lt_card
          (Finset.ssubset_iff_of_subset hbefore |>.mpr ⟨between, hmem, hnotBefore⟩)
      · rw [← hcount]
        exact Finset.card_lt_card
          (Finset.ssubset_iff_of_subset hafter |>.mpr ⟨between, hmem, hnotAfter⟩)

end Chains

namespace PoloniusInfo

variable {Ty : Type u} {info : PoloniusInfo Ty} {facts : PoloniusFacts Ty}
  {loans zombieLoans : List Loan} {location : Location}

/-- Placeholder loans stand for what the caller lent. -/
def IsPlaceholder (info : PoloniusInfo Ty) (loan : Loan) : Prop :=
  ∃ entry ∈ info.placeholder, entry.2 = loan

/-- Without magic wands for loops, no loan is made in a loop that the location is not in, and
all loans but the placeholders are selected. -/
theorem selectLoans_eq {selected : List Loan} {representativeLoan : Option Loan}
    (h : (PoloniusInfo.new facts).selectLoans loans location = .ok (selected, representativeLoan)) :
    selected = loans.filter (fun loan =>
      (PoloniusInfo.new facts).placeholder.all fun entry => entry.2 ≠ loan) ∧
      representativeLoan = none := by
  rw [selectLoans] at h
  split at h
  · obtain ⟨rfl, rfl⟩ := Prod.mk.inj (Except.ok.inj h)
    exact ⟨rfl, rfl⟩
  · rw [bind_eq_ok_iff] at h
    obtain ⟨loanLoops, -, h⟩ := h
    cases loanLoops with
    | nil =>
      obtain ⟨rfl, rfl⟩ := Prod.mk.inj (Except.ok.inj h)
      exact ⟨rfl, rfl⟩
    | cons => cases h

theorem mem_selected_iff {loan : Loan} :
    loan ∈ loans.filter (fun loan => info.placeholder.all fun entry => entry.2 ≠ loan) ↔
      loan ∈ loans ∧ ¬ info.IsPlaceholder loan := by
  rw [List.mem_filter, List.all_eq_true, IsPlaceholder]
  push Not
  simp only [decide_eq_true_eq]

theorem map_loan_of_mapM {representativeLoan : Option Loan} {selected sorted items : List Loan}
    {nodes : List ReborrowingDAGNode}
    (h : items.mapM (info.constructNode representativeLoan selected zombieLoans location sorted) =
      .ok nodes) : nodes.map ReborrowingDAGNode.loan = items := by
  induction items generalizing nodes with
  | nil =>
    rw [List.mapM_nil, pure_eq_ok_iff] at h
    rw [← h]
    rfl
  | cons loan items ih =>
    simp only [List.mapM_cons, bind_eq_ok_iff, pure_eq_ok_iff] at h
    obtain ⟨node, hnode, rest, hrest, rfl⟩ := h
    simp only [constructNode, bind_eq_ok_iff, pure_eq_ok_iff] at hnode
    obtain ⟨kind, -, zombity, -, incomingZombies, -, rfl⟩ := hnode
    rw [List.map_cons, ih hrest]

/-- Without a representative loan the sort follows the direct reborrows. -/
theorem visits_none_iff {reborrowsDirect : Finset (Loan × Loan)} {loan loan' : Loan} :
    info.visits none reborrowsDirect loan loan' = true ↔ (loan, loan') ∈ reborrowsDirect := by
  simp [visits]

theorem acyclic_visits
    (hacyclic : AcyclicReborrows (PoloniusInfo.new facts).additionalFacts.reborrows) (loan : Loan) :
    ¬ Relation.TransGen (fun loan loan' => (PoloniusInfo.new facts).visits none
      (PoloniusInfo.new facts).additionalFacts.reborrowsDirect loan loan' = true) loan loan := by
  refine fun hcycle => hacyclic loan (Relation.TransGen.mono ?_ loan loan hcycle)
  exact fun _ _ hvisits =>
    AdditionalFacts.reborrowsDirect_subset (visits_none_iff.mp hvisits)

/-- A chain of reborrows is in the order of the list. -/
theorem idxOf_lt_of_chain {direct : Finset (Loan × Loan)} {sorted : List Loan}
    (hnodup : sorted.Nodup)
    (hsorted : ∀ loan ∈ sorted, ∀ loan' ∈ sorted, (loan, loan') ∈ direct →
      List.Sublist [loan, loan'] sorted) {loan loan' : Loan}
    (h : Relation.TransGen (DirectIn direct sorted) loan loan') :
    sorted.idxOf loan < sorted.idxOf loan' := by
  induction h with
  | single hdirect =>
    exact idxOf_lt_of_pair_sublist hnodup (hsorted _ hdirect.2.1 _ hdirect.2.2 hdirect.1)
  | tail _ hdirect ih =>
    exact ih.trans (idxOf_lt_of_pair_sublist hnodup (hsorted _ hdirect.2.1 _ hdirect.2.2 hdirect.1))

/-- If the reborrows have no cycle, the sort does not fail.  The nodes of a DAG that is
returned list the loans that are no placeholders once, and a loan comes before those that
it reborrows through loans of the list, which are all if every loan in between is listed. -/
theorem constructReborrowingDag_sorted (facts : PoloniusFacts Ty) (loans zombieLoans : List Loan)
    (location : Location)
    (hacyclic : AcyclicReborrows (PoloniusInfo.new facts).additionalFacts.reborrows)
    (hnodup : loans.Nodup) :
    (∀ selected representativeLoan,
      (PoloniusInfo.new facts).selectLoans loans location = .ok (selected, representativeLoan) →
        ∃ sorted, (PoloniusInfo.new facts).sortLoans representativeLoan
          (PoloniusInfo.new facts).additionalFacts.reborrowsDirect selected = .ok sorted) ∧
    ∀ dag, (PoloniusInfo.new facts).constructReborrowingDag loans zombieLoans location = .ok dag →
      dag.loans.Nodup ∧
      (∀ loan, loan ∈ dag.loans ↔ loan ∈ loans ∧ ¬ (PoloniusInfo.new facts).IsPlaceholder loan) ∧
      (∀ loan loan', Relation.TransGen
        (DirectIn (PoloniusInfo.new facts).additionalFacts.reborrowsDirect dag.loans)
          loan loan' → dag.loans.idxOf loan < dag.loans.idxOf loan') ∧
      ∀ loan ∈ dag.loans, ∀ loan' ∈ dag.loans,
        (loan, loan') ∈ (PoloniusInfo.new facts).additionalFacts.reborrows →
          (∀ between ∈ betweenLoans (PoloniusInfo.new facts).additionalFacts.reborrows
            loan loan', between ∈ dag.loans) →
          dag.loans.idxOf loan < dag.loans.idxOf loan' := by
  constructor
  · intro selected representativeLoan hselected
    obtain ⟨-, rfl⟩ := selectLoans_eq hselected
    obtain ⟨sorted, hsorted, -⟩ := sortLoans_spec (acyclic_visits hacyclic) selected
    exact ⟨sorted, hsorted⟩
  · intro dag hdag
    rw [constructReborrowingDag, constructReborrowingDagCustomReborrows,
      bind_eq_ok_iff] at hdag
    obtain ⟨⟨selected, representativeLoan⟩, hselected, hdag⟩ := hdag
    obtain ⟨rfl, rfl⟩ := selectLoans_eq hselected
    obtain ⟨sorted, hsorted, hperm, horder⟩ := sortLoans_spec (acyclic_visits hacyclic)
      (loans.filter fun loan =>
        (PoloniusInfo.new facts).placeholder.all fun entry => entry.2 ≠ loan)
    simp only [hsorted, bind_eq_ok_iff, pure_eq_ok_iff, Except.ok.injEq,
      exists_eq_left'] at hdag
    obtain ⟨nodes, hnodes, rfl⟩ := hdag
    have hloans : ReborrowingDAG.loans ⟨nodes⟩ = sorted := map_loan_of_mapM hnodes
    rw [hloans]
    have hsortedNodup : sorted.Nodup := hperm.nodup_iff.mpr (hnodup.filter _)
    have hchain : ∀ loan loan', Relation.TransGen
        (DirectIn (PoloniusInfo.new facts).additionalFacts.reborrowsDirect sorted) loan loan' →
          sorted.idxOf loan < sorted.idxOf loan' := fun _ _ =>
      idxOf_lt_of_chain hsortedNodup fun loan hloan loan' hloan' hdirect =>
        horder loan (hperm.mem_iff.mp hloan) loan' (hperm.mem_iff.mp hloan')
          (visits_none_iff.mpr hdirect)
    refine ⟨hsortedNodup, fun loan => hperm.mem_iff.trans mem_selected_iff, hchain, ?_⟩
    intro loan hloan loan' hloan' hreborrows hbetween
    exact hchain loan loan' (exists_chain (AdditionalFacts.mem_reborrows_trans hacyclic) hacyclic
      hreborrows hloan hloan' hbetween)

namespace Witness

/-- The first loan reborrows the second one, which reborrows the third one. -/
def chainFacts : PoloniusFacts Unit where
  mir := ⟨[⟨[.nop, .nop, .nop], .return⟩], [()], 0, by decide, Nat.one_pos, by decide⟩
  placeholder := []
  borrowRegion := [(0, 0, 0), (1, 1, 1), (2, 2, 2)]
  restricts := [(0, 0, 0), (0, 0, 1), (0, 0, 2), (1, 1, 1), (1, 1, 2), (2, 2, 2)]
  incompatibleLoans := []
  pointLocation := fun point => ⟨0, point⟩
  callMagicWands := HashMap.empty
  placeRegions := HashMap.empty
  enclosingLoopHeads := HashMap.empty
  referenceMoves := []
  argumentMoves := []

theorem reborrows_chainFacts :
    (PoloniusInfo.new chainFacts).additionalFacts.reborrows = {(0, 1), (0, 2), (1, 2)} := by
  decide +kernel

theorem acyclic_chainFacts :
    AcyclicReborrows (PoloniusInfo.new chainFacts).additionalFacts.reborrows := by
  have hlt : ∀ pair ∈ (PoloniusInfo.new chainFacts).additionalFacts.reborrows, pair.1 < pair.2 := by
    rw [reborrows_chainFacts]
    decide
  intro loan hcycle
  have hpath : ∀ loan', Relation.TransGen
      (InPairs (PoloniusInfo.new chainFacts).additionalFacts.reborrows) loan loan' →
        loan < loan' := by
    intro loan' h
    induction h with
    | single hpair => exact hlt _ hpair
    | tail _ hpair ih => exact ih.trans (hlt _ hpair)
  exact Nat.lt_irrefl loan (hpath loan hcycle)

theorem constructReborrowingDag_sorted_chainFacts :
    ∃ dag, (PoloniusInfo.new chainFacts).constructReborrowingDag [2, 0, 1] [] ⟨0, 3⟩ = .ok dag ∧
      dag.loans.idxOf 0 < dag.loans.idxOf 2 := by
  have hreturns : ((PoloniusInfo.new chainFacts).constructReborrowingDag [2, 0, 1] []
      ⟨0, 3⟩).toOption.map ReborrowingDAG.loans = some [0, 1, 2] := by
    decide +kernel
  obtain ⟨dag, hdag, hloans⟩ := Option.map_eq_some_iff.mp hreturns
  have hdag' := Stop.toOption_eq_some_iff.mp hdag
  refine ⟨dag, hdag', (constructReborrowingDag_sorted chainFacts [2, 0, 1] [] ⟨0, 3⟩
    acyclic_chainFacts (by decide)).2 dag hdag' |>.2.2.2 0 ?_ 2 ?_ ?_ ?_⟩
  · rw [hloans]
    decide
  · rw [hloans]
    decide
  · rw [reborrows_chainFacts]
    decide
  · rw [hloans, reborrows_chainFacts]
    decide

/-- When the loan in the middle is not listed, the last one comes first. -/
theorem not_sorted_chainFacts :
    AcyclicReborrows (PoloniusInfo.new chainFacts).additionalFacts.reborrows ∧
      (0, 2) ∈ (PoloniusInfo.new chainFacts).additionalFacts.reborrows ∧
      ∃ dag, (PoloniusInfo.new chainFacts).constructReborrowingDag [0, 2] [] ⟨0, 3⟩ = .ok dag ∧
        dag.loans = [2, 0] ∧ ¬ dag.loans.idxOf 0 < dag.loans.idxOf 2 := by
  have hreturns : ((PoloniusInfo.new chainFacts).constructReborrowingDag [0, 2] []
      ⟨0, 3⟩).toOption.map ReborrowingDAG.loans = some [2, 0] := by
    decide +kernel
  obtain ⟨dag, hdag, hloans⟩ := Option.map_eq_some_iff.mp hreturns
  refine ⟨acyclic_chainFacts, ?_, dag, Stop.toOption_eq_some_iff.mp hdag, hloans, ?_⟩
  · rw [reborrows_chainFacts]
    decide
  · rw [hloans]
    decide

end Witness

end PoloniusInfo

end Prusti.Borrowck

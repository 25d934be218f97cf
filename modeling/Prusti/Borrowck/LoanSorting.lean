/-
The topological sort of loans explores the graph that the visited edges form on the
positions of the list.  Without a cycle it never meets a loan that is being visited.
-/
import Prusti.Lib.Dfs
import Prusti.Borrowck.ReborrowingDag

namespace Prusti.Borrowck

open Prusti.Lib

universe u

namespace Sorting

section Marks

/-- The positions without a mark. -/
def unmarked (marks : List Bool) : Finset Nat :=
  (Finset.range marks.length).filter fun idx => marks[idx]? ≠ some true

variable {marks marks' : List Bool} {idx : Nat}

theorem unmarked_subset (hlength : marks'.length = marks.length)
    (hmono : ∀ idx : Nat, marks[idx]? = some true → marks'[idx]? = some true) :
    unmarked marks' ⊆ unmarked marks := by
  intro idx hidx
  obtain ⟨hlt, hnot⟩ := Finset.mem_filter.mp hidx
  rw [hlength] at hlt
  exact Finset.mem_filter.mpr ⟨hlt, fun hmark => hnot (hmono idx hmark)⟩

/-- A new mark lowers the number of positions without one. -/
theorem card_unmarked_lt (hlength : marks'.length = marks.length)
    (hmono : ∀ idx : Nat, marks[idx]? = some true → marks'[idx]? = some true)
    (hlt : idx < marks.length) (hold : marks[idx]? ≠ some true)
    (hnew : marks'[idx]? = some true) : (unmarked marks').card < (unmarked marks).card := by
  refine Finset.card_lt_card (Finset.ssubset_iff_of_subset (unmarked_subset hlength hmono)
    |>.mpr ⟨idx, ?_, ?_⟩)
  · exact Finset.mem_filter.mpr ⟨Finset.mem_range.mpr hlt, hold⟩
  · exact fun hmem => (Finset.mem_filter.mp hmem).2 hnew

end Marks

section Visit

variable (visits : Loan → Loan → Bool) (loans : List Loan)

/-- The positions that the visit of a position goes on to. -/
def successors (current : Nat) : List Nat :=
  match loans[current]? with
  | some currentLoan =>
    (loans.zipIdx.filter fun entry => visits currentLoan entry.1).map Prod.snd
  | none => []

variable {visits loans}

variable {current fuel : Nat} {sorting : Sorting}

theorem mem_successors_iff {next : Nat} :
    next ∈ successors visits loans current ↔ ∃ currentLoan loan,
      loans[current]? = some currentLoan ∧ loans[next]? = some loan ∧
        visits currentLoan loan = true := by
  rw [successors]
  cases hcurrent : loans[current]? with
  | none => simp
  | some currentLoan =>
    simp only [List.mem_map, List.mem_filter, Option.some_inj, exists_eq_left', exists_and_left]
    constructor
    · rintro ⟨⟨loan, _⟩, ⟨hmem, hvisits⟩, rfl⟩
      exact ⟨loan, List.mem_zipIdx_iff_getElem?.mp hmem, hvisits⟩
    · rintro ⟨loan, hloan, hvisits⟩
      exact ⟨(loan, next), ⟨List.mem_zipIdx_iff_getElem?.mpr hloan, hvisits⟩, rfl⟩

theorem lt_of_mem_successors {next : Nat} (h : next ∈ successors visits loans current) :
    next < loans.length := by
  obtain ⟨_, _, _, hnext, _⟩ := mem_successors_iff.mp h
  exact (List.getElem?_eq_some_iff.mp hnext).1

/-- The marks are as long as the list, and what is finished was started. -/
structure WellFormed (loans : List Loan) (sorting : Sorting) : Prop where
  length_permanent : sorting.permanentMark.length = loans.length
  length_temporary : sorting.temporaryMark.length = loans.length
  started : ∀ idx : Nat, sorting.permanentMark[idx]? = some true →
    sorting.temporaryMark[idx]? = some true

/-- The positions whose visit is started. -/
def Started (sorting : Sorting) : Set Nat := {idx | sorting.temporaryMark[idx]? = some true}

/-- The positions whose visit is started and not finished. -/
def Open (sorting : Sorting) (idx : Nat) : Prop :=
  sorting.temporaryMark[idx]? = some true ∧ sorting.permanentMark[idx]? ≠ some true

/-- What does not change when positions are visited that are left in the given order. -/
structure Extends (loans : List Loan) (left : List Nat) (before after : Sorting) : Prop where
  wellFormed : WellFormed loans after
  sortedLoans : after.sortedLoans = before.sortedLoans ++ left.filterMap (loans[·]?)
  started : ∀ idx ∈ before.Started, idx ∈ after.Started
  finished : ∀ idx : Nat, before.permanentMark[idx]? = some true →
    after.permanentMark[idx]? = some true
  opened : ∀ idx, after.Open idx ↔ before.Open idx

theorem Extends.refl (h : WellFormed loans sorting) : Extends loans [] sorting sorting :=
  ⟨h, (List.append_nil _).symm, fun _ => id, fun _ => id, fun _ => Iff.rfl⟩

theorem Extends.trans {left left' : List Nat} {first second third : Sorting}
    (h : Extends loans left first second) (h' : Extends loans left' second third) :
    Extends loans (left ++ left') first third where
  wellFormed := h'.wellFormed
  sortedLoans := by
    rw [h'.sortedLoans, h.sortedLoans, List.append_assoc, List.filterMap_append]
  started idx hidx := h'.started idx (h.started idx hidx)
  finished idx hidx := h'.finished idx (h.finished idx hidx)
  opened idx := (h'.opened idx).trans (h.opened idx)

/-- A visit returns.  It explores the graph from its position, and finishes it. -/
structure Visited (visits : Loan → Loan → Bool) (loans : List Loan) (current : Nat)
    (left : List Nat) (before after : Sorting) : Prop where
  toExtends : Extends loans left before after
  explore : ∀ work rest seen,
    Explore (successors visits loans) after.Started work rest seen →
      Explore (successors visits loans) before.Started (current :: work) (left ++ rest) seen
  current_finished : after.permanentMark[current]? = some true

/-- The loop over the loans is one over the successors. -/
theorem foldlM_zipIdx_eq {currentLoan : Loan} (hcurrent : loans[current]? = some currentLoan)
    (sorting : Sorting) :
    (loans.zipIdx.foldlM (fun sorting (loan, newCurrent) =>
      if visits currentLoan loan then visit visits loans fuel newCurrent sorting
      else pure sorting) sorting : Outcome Sorting) = (successors visits loans current).foldlM
        (fun sorting newCurrent => visit visits loans fuel newCurrent sorting) sorting := by
  rw [successors, hcurrent]
  simp only
  generalize loans.zipIdx = entries
  induction entries generalizing sorting with
  | nil => rfl
  | cons entry entries ih =>
    rw [List.foldlM_cons, List.filter_cons]
    cases hvisits : visits currentLoan entry.1 with
    | true =>
      simp only [↓reduceIte, List.map_cons, List.foldlM_cons]
      exact congrArg _ (funext ih)
    | false =>
      simp only [Bool.false_eq_true, ↓reduceIte, pure_bind]
      exact ih sorting

def start (sorting : Sorting) (current : Nat) : Sorting :=
  { sorting with temporaryMark := sorting.temporaryMark.set current true }

def finish (sorting : Sorting) (current : Nat) (currentLoan : Loan) : Sorting :=
  { sorting with
    permanentMark := sorting.permanentMark.set current true
    sortedLoans := sorting.sortedLoans ++ [currentLoan] }

theorem visit_of_finished (h : sorting.permanentMark[current]? = some true) :
    visit visits loans (fuel + 1) current sorting = .ok sorting := by
  rw [visit, h]
  rfl

theorem visit_of_new {currentLoan : Loan}
    (hpermanent : sorting.permanentMark[current]? = some false)
    (htemporary : sorting.temporaryMark[current]? = some false)
    (hcurrent : loans[current]? = some currentLoan) :
    visit visits loans (fuel + 1) current sorting =
      ((successors visits loans current).foldlM
        (fun sorting newCurrent => visit visits loans fuel newCurrent sorting)
        (sorting.start current)) >>= fun after => pure (after.finish current currentLoan) := by
  rw [← foldlM_zipIdx_eq hcurrent, visit, hpermanent, htemporary, hcurrent]
  rfl

section Start

variable {sorting after : Sorting} {current : Nat} {currentLoan : Loan} {left : List Nat}

section

variable (h : WellFormed loans sorting) (hlt : current < loans.length)

include h hlt

theorem wellFormed_start :
    WellFormed loans (sorting.start current) where
  length_permanent := h.length_permanent
  length_temporary := by rw [start, List.length_set, h.length_temporary]
  started idx hidx := by
    rw [start, getElem?_set_true (h.length_temporary ▸ hlt)]
    exact .inr (h.started idx hidx)

theorem started_start : (sorting.start current).Started = insert current sorting.Started := by
  ext idx
  exact getElem?_set_true (h.length_temporary ▸ hlt) idx

theorem open_start_iff (hnew : sorting.permanentMark[current]? ≠ some true) {idx : Nat} :
    (sorting.start current).Open idx ↔ idx = current ∨ sorting.Open idx := by
  rw [Open, start, getElem?_set_true (h.length_temporary ▸ hlt), or_and_right]
  refine or_congr_left (and_iff_left_of_imp ?_)
  rintro rfl
  exact hnew

end

/-- Between its start and its finish a visit only visits others. -/
theorem extends_finish (h : WellFormed loans sorting)
    (hcurrent : loans[current]? = some currentLoan)
    (hpermanent : sorting.permanentMark[current]? = some false)
    (htemporary : sorting.temporaryMark[current]? = some false)
    (hextends : Extends loans left (sorting.start current) after) :
    Extends loans (left ++ [current]) sorting (after.finish current currentLoan) := by
  have hlt := (List.getElem?_eq_some_iff.mp hcurrent).1
  have hnew : sorting.permanentMark[current]? ≠ some true := by simp [hpermanent]
  have hopen : ∀ idx, after.Open idx ↔ idx = current ∨ sorting.Open idx := fun idx =>
    (hextends.opened idx).trans (open_start_iff h hlt hnew)
  have hlength : current < after.permanentMark.length := hextends.wellFormed.length_permanent ▸ hlt
  refine ⟨⟨?_, hextends.wellFormed.length_temporary, fun idx hidx => ?_⟩, ?_, fun idx hidx => ?_,
    fun idx hidx => ?_, fun idx => ?_⟩
  · rw [finish, List.length_set, hextends.wellFormed.length_permanent]
  · rw [finish, getElem?_set_true hlength] at hidx
    rcases hidx with rfl | hidx
    · exact ((hopen idx).mpr (.inl rfl)).1
    · exact hextends.wellFormed.started idx hidx
  · rw [finish, hextends.sortedLoans, List.filterMap_append, List.append_assoc]
    simp [hcurrent, start]
  · exact hextends.started idx (started_start h hlt ▸ Set.mem_insert_of_mem current hidx)
  · rw [finish, getElem?_set_true hlength]
    exact .inr (hextends.finished idx hidx)
  · have hiff : (after.finish current currentLoan).Open idx ↔ after.Open idx ∧ idx ≠ current := by
      have hmark := getElem?_set_true hlength idx
      rw [Open, finish, ne_eq, hmark, not_or]
      exact ⟨fun hidx => ⟨⟨hidx.1, hidx.2.2⟩, hidx.2.1⟩, fun hidx => ⟨hidx.1.1, hidx.2, hidx.1.2⟩⟩
    rw [hiff, hopen]
    constructor
    · exact fun hidx => hidx.1.resolve_left hidx.2
    · rintro hidx
      refine ⟨.inr hidx, ?_⟩
      rintro rfl
      have hstarted := hidx.1
      rw [htemporary] at hstarted
      cases hstarted

end Start

/-- Visits return when every open position has a path to the position, and the fuel is
larger than the number of positions that are not started. -/
def VisitsReturn (visits : Loan → Loan → Bool) (loans : List Loan) (fuel : Nat) : Prop :=
  ∀ current sorting, WellFormed loans sorting → current < loans.length →
    (∀ idx, sorting.Open idx → Relation.TransGen (Edge (successors visits loans)) idx current) →
    (unmarked sorting.temporaryMark).card < fuel →
    ∃ after left, visit visits loans fuel current sorting = .ok after ∧
      Visited visits loans current left sorting after

theorem visitEach_spec (hvisit : VisitsReturn visits loans fuel) {work : List Nat}
    (h : WellFormed loans sorting) (hlt : ∀ next ∈ work, next < loans.length)
    (hopen : ∀ next ∈ work, ∀ idx, sorting.Open idx →
      Relation.TransGen (Edge (successors visits loans)) idx next)
    (hfuel : (unmarked sorting.temporaryMark).card < fuel) :
    ∃ after left, work.foldlM
        (fun sorting newCurrent => visit visits loans fuel newCurrent sorting) sorting = .ok after ∧
      Extends loans left sorting after ∧
        Explore (successors visits loans) sorting.Started work left after.Started := by
  induction work generalizing sorting with
  | nil => exact ⟨sorting, [], rfl, Extends.refl h, .nil⟩
  | cons next work ih =>
    rw [List.forall_mem_cons] at hlt hopen
    obtain ⟨middle, left, hmiddle, hvisited⟩ := hvisit next sorting h hlt.1 hopen.1 hfuel
    have hextends := hvisited.toExtends
    have hcard : (unmarked middle.temporaryMark).card < fuel := by
      refine lt_of_le_of_lt (Finset.card_le_card (unmarked_subset ?_ hextends.started)) hfuel
      rw [hextends.wellFormed.length_temporary, h.length_temporary]
    obtain ⟨after, left', hafter, hextends', hexplore⟩ := ih hextends.wellFormed hlt.2
      (fun next' hnext' idx hidx => hopen.2 next' hnext' idx ((hextends.opened idx).mp hidx))
      hcard
    refine ⟨after, left ++ left', ?_, hextends.trans hextends', hvisited.explore _ _ _ hexplore⟩
    rw [List.foldlM_cons, hmiddle]
    exact hafter

/-- Without a cycle no visit meets an open position. -/
theorem visitsReturn
    (hacyclic : ∀ idx, ¬ Relation.TransGen (Edge (successors visits loans)) idx idx)
    (fuel : Nat) : VisitsReturn visits loans fuel := by
  induction fuel with
  | zero => exact fun _ _ _ _ _ hfuel => absurd hfuel (Nat.not_lt_zero _)
  | succ fuel ih =>
    intro current sorting h hlt hopen hfuel
    obtain ⟨currentLoan, hcurrent⟩ : ∃ currentLoan, loans[current]? = some currentLoan :=
      ⟨_, List.getElem?_eq_getElem hlt⟩
    obtain ⟨permanent, hpermanent⟩ : ∃ mark, sorting.permanentMark[current]? = some mark :=
      ⟨_, List.getElem?_eq_getElem (h.length_permanent ▸ hlt)⟩
    obtain ⟨temporary, htemporary⟩ : ∃ mark, sorting.temporaryMark[current]? = some mark :=
      ⟨_, List.getElem?_eq_getElem (h.length_temporary ▸ hlt)⟩
    cases permanent with
    | true =>
      refine ⟨sorting, [], visit_of_finished hpermanent, Extends.refl h, ?_, hpermanent⟩
      exact fun work rest seen hexplore => .skip (h.started current hpermanent) hexplore
    | false =>
      cases temporary with
      | true =>
        have hcurrentOpen : sorting.Open current := ⟨htemporary, by simp [hpermanent]⟩
        exact absurd (hopen current hcurrentOpen) (hacyclic current)
      | false =>
        have hnew : sorting.permanentMark[current]? ≠ some true := by simp [hpermanent]
        have hnotStarted : current ∉ sorting.Started := fun hstarted => by
          cases htemporary.symm.trans hstarted
        have hmark : ∀ idx : Nat, (sorting.start current).temporaryMark[idx]? = some true ↔
            idx = current ∨ sorting.temporaryMark[idx]? = some true :=
          getElem?_set_true (h.length_temporary ▸ hlt)
        have hcard : (unmarked (sorting.start current).temporaryMark).card < fuel := by
          refine lt_of_lt_of_le (card_unmarked_lt ?_ (fun idx hidx => (hmark idx).mpr
            (.inr hidx)) (h.length_temporary ▸ hlt) hnotStarted
            ((hmark current).mpr (.inl rfl))) (Nat.le_of_lt_succ hfuel)
          rw [start, List.length_set]
        have hpaths : ∀ next ∈ successors visits loans current, ∀ idx,
            (sorting.start current).Open idx →
              Relation.TransGen (Edge (successors visits loans)) idx next := by
          intro next hnext idx hidx
          rcases (open_start_iff h hlt hnew).mp hidx with rfl | hidx
          · exact .single hnext
          · exact .tail (hopen idx hidx) hnext
        obtain ⟨after, left, hafter, hextends, hexplore⟩ := visitEach_spec ih
          (wellFormed_start h hlt) (fun next => lt_of_mem_successors) hpaths hcard
        rw [started_start h hlt] at hexplore
        refine ⟨after.finish current currentLoan, left ++ [current], ?_,
          extends_finish h hcurrent hpermanent htemporary hextends, ?_, ?_⟩
        · rw [visit_of_new hpermanent htemporary hcurrent, hafter]
          rfl
        · intro work rest seen hrest
          rw [List.append_assoc]
          exact .visit hnotStarted hexplore hrest
        · exact (getElem?_set_true (hextends.wellFormed.length_permanent ▸ hlt)
            current).mpr (.inl rfl)

/-- The loop over the positions that are not finished explores the whole graph. -/
theorem visitAll_spec
    (hacyclic : ∀ idx, ¬ Relation.TransGen (Edge (successors visits loans)) idx idx)
    (h : WellFormed loans sorting) (hopen : ∀ idx, ¬ sorting.Open idx)
    (hfuel : (unmarked sorting.permanentMark).card < fuel) :
    ∃ after roots left, visitAll visits loans fuel sorting = .ok after ∧
      Explore (successors visits loans) sorting.Started roots left after.Started ∧
      Extends loans left sorting after ∧ (∀ root ∈ roots, root < loans.length) ∧
      ∀ idx < loans.length, after.permanentMark[idx]? = some true := by
  induction fuel generalizing sorting with
  | zero => exact absurd hfuel (Nat.not_lt_zero _)
  | succ fuel ih =>
    rw [visitAll]
    cases hindex : sorting.permanentMark.findIdx? (! ·) with
    | none =>
      refine ⟨sorting, [], [], rfl, .nil, Extends.refl h, fun _ hroot => absurd hroot
        List.not_mem_nil, fun idx hidx => ?_⟩
      have hmarked := List.findIdx?_eq_none_iff.mp hindex
      rw [← h.length_permanent] at hidx
      rw [List.getElem?_eq_getElem hidx, Option.some_inj]
      simpa using hmarked _ (List.getElem_mem hidx)
    | some index =>
      obtain ⟨hlength, hnotFinished, -⟩ := List.findIdx?_eq_some_iff_getElem.mp hindex
      have hlt : index < loans.length := h.length_permanent ▸ hlength
      have hnew : sorting.permanentMark[index]? ≠ some true := by
        rw [List.getElem?_eq_getElem hlength]
        simpa using hnotFinished
      have hcard : (unmarked sorting.temporaryMark).card < loans.length + 1 := by
        refine Nat.lt_succ_of_le ((Finset.card_filter_le _ _).trans ?_)
        rw [Finset.card_range, h.length_temporary]
      obtain ⟨middle, left, hmiddle, hvisited⟩ := visitsReturn hacyclic _ index sorting h hlt
        (fun idx hidx => absurd hidx (hopen idx)) hcard
      have hextends := hvisited.toExtends
      have hsmaller : (unmarked middle.permanentMark).card < fuel := by
        refine lt_of_lt_of_le (card_unmarked_lt ?_ hextends.finished hlength hnew
          hvisited.current_finished) (Nat.le_of_lt_succ hfuel)
        rw [hextends.wellFormed.length_permanent, h.length_permanent]
      obtain ⟨after, roots, left', hafter, hexplore, hextends', hroots, hfinished⟩ :=
        ih hextends.wellFormed (fun idx hidx => hopen idx ((hextends.opened idx).mp hidx)) hsmaller
      refine ⟨after, index :: roots, left ++ left', ?_, hvisited.explore _ _ _ hexplore,
        hextends.trans hextends', List.forall_mem_cons.mpr ⟨hlt, hroots⟩, hfinished⟩
      change visit visits loans (loans.length + 1) index sorting >>= _ = _
      rw [hmiddle]
      exact hafter

/-- A path of positions is one of loans. -/
theorem transGen_loans {idx idx' : Nat}
    (h : Relation.TransGen (Edge (successors visits loans)) idx idx') :
    ∃ loan loan', loans[idx]? = some loan ∧ loans[idx']? = some loan' ∧
      Relation.TransGen (fun loan loan' => visits loan loan' = true) loan loan' := by
  induction h with
  | single hedge =>
    obtain ⟨loan, loan', hloan, hloan', hvisits⟩ := mem_successors_iff.mp hedge
    exact ⟨loan, loan', hloan, hloan', .single hvisits⟩
  | tail _ hedge ih =>
    obtain ⟨loan, middle, hloan, hmiddle, hpath⟩ := ih
    obtain ⟨middle', loan', hmiddle', hloan', hvisits⟩ := mem_successors_iff.mp hedge
    obtain rfl := Option.some_inj.mp (hmiddle.symm.trans hmiddle')
    exact ⟨loan, loan', hloan, hloan', .tail hpath hvisits⟩

theorem acyclic_successors (loans : List Loan)
    (h : ∀ loan, ¬ Relation.TransGen (fun loan loan' => visits loan loan' = true) loan loan)
    (idx : Nat) : ¬ Relation.TransGen (Edge (successors visits loans)) idx idx := by
  intro hcycle
  obtain ⟨loan, loan', hloan, hloan', hpath⟩ := transGen_loans hcycle
  obtain rfl := Option.some_inj.mp (hloan.symm.trans hloan')
  exact h loan hpath

theorem filterMap_getElem?_range (loans : List Loan) :
    (List.range loans.length).filterMap (loans[·]?) = loans := by
  induction loans with
  | nil => rfl
  | cons loan loans ih =>
    rw [List.length_cons, List.range_succ_eq_map, List.filterMap_cons, List.filterMap_map]
    exact congrArg (List.cons loan) ih

end Visit

end Sorting

namespace PoloniusInfo

variable {Ty : Type u} {info : PoloniusInfo Ty} {representativeLoan : Option Loan}
  {reborrowsDirect : Finset (Loan × Loan)}

open Sorting in
/-- Without a cycle the sort returns.  It lists every loan as often as the list does, and
a loan before those that its visit goes on to. -/
theorem sortLoans_spec (hacyclic : ∀ loan, ¬ Relation.TransGen (fun loan loan' =>
      info.visits representativeLoan reborrowsDirect loan loan' = true) loan loan)
    (loans : List Loan) :
    ∃ sorted, info.sortLoans representativeLoan reborrowsDirect loans = .ok sorted ∧
      sorted.Perm loans ∧
      ∀ loan ∈ loans, ∀ loan' ∈ loans,
        info.visits representativeLoan reborrowsDirect loan loan' = true →
          List.Sublist [loan, loan'] sorted := by
  have hacyclic' := acyclic_successors loans hacyclic
  let unmarked := List.replicate loans.length false
  have hnotStarted : ∀ idx : Nat, unmarked[idx]? ≠ some true := by
    intro idx
    rw [List.getElem?_replicate]
    split <;> exact fun heq => nomatch heq
  have hwellFormed : WellFormed loans ⟨[], unmarked, unmarked⟩ :=
    ⟨List.length_replicate, List.length_replicate, fun _ => id⟩
  have hfuel : (Sorting.unmarked unmarked).card < loans.length + 1 := by
    refine Nat.lt_succ_of_le ((Finset.card_filter_le _ _).trans ?_)
    rw [Finset.card_range, List.length_replicate]
  obtain ⟨after, roots, left, hafter, hexplore, hextends, hroots, hfinished⟩ :=
    visitAll_spec hacyclic' hwellFormed (fun idx hidx => hnotStarted idx hidx.1) hfuel
  have hleft : ∀ idx, idx ∈ left ↔ idx < loans.length := by
    intro idx
    constructor
    · intro hidx
      obtain ⟨root, hroot, hreaches⟩ := hexplore.reaches idx hidx
      cases hreaches with
      | refl => exact hroots idx hroot
      | tail _ hedge => exact lt_of_mem_successors hedge
    · intro hlt
      have hstarted := hextends.wellFormed.started idx (hfinished idx hlt)
      exact ((hexplore.mem_marked_iff idx).mp hstarted).resolve_left (hnotStarted idx)
  have hperm : left.Perm (List.range loans.length) :=
    (List.perm_ext_iff_of_nodup hexplore.nodup List.nodup_range).mpr fun idx =>
      (hleft idx).trans List.mem_range.symm
  refine ⟨(left.filterMap (loans[·]?)).reverse, ?_, ?_, ?_⟩
  · rw [sortLoans, hafter]
    exact congrArg (fun sorted => Except.ok sorted.reverse) hextends.sortedLoans
  · refine (List.reverse_perm _).trans ((hperm.filterMap _).trans ?_)
    rw [filterMap_getElem?_range]
  · intro loan hloan loan' hloan' hvisits
    obtain ⟨idx, hidx⟩ := List.mem_iff_getElem?.mp hloan
    obtain ⟨idx', hidx'⟩ := List.mem_iff_getElem?.mp hloan'
    have hedge : idx' ∈ successors (info.visits representativeLoan reborrowsDirect) loans idx :=
      mem_successors_iff.mpr ⟨loan, loan', hidx, hidx', hvisits⟩
    have hmem := (hleft idx).mpr (List.getElem?_eq_some_iff.mp hidx).1
    rcases hexplore.left_order idx hmem idx' hedge with hstarted | hsublist | hreaches
    · exact absurd hstarted (hnotStarted idx')
    · have hpair := (hsublist.filterMap (loans[·]?)).reverse
      simpa [hidx, hidx'] using hpair
    · exact absurd (Relation.TransGen.head' hedge hreaches) (hacyclic' idx)

end PoloniusInfo

end Prusti.Borrowck

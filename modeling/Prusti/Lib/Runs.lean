/-
Finite sets of a linear order as lists of ranges: the ranges are sorted and disjoint, and
no two of them can be merged.
-/
import Mathlib.Data.List.Basic
import Mathlib.Order.Cover

namespace Prusti.Lib

universe u

variable {α : Type u} [LinearOrder α]

/-- The ranges are the maximal runs of neighbours in the set, in ascending order. -/
structure IsRuns (ranges : List (α × α)) (set : Set α) : Prop where
  ordered : ∀ range ∈ ranges, range.1 ≤ range.2
  sorted : ranges.Pairwise fun left right => left.2 < right.1
  maximal : ranges.Pairwise fun left right => ¬ left.2 ⋖ right.1
  mem_iff : ∀ elem, elem ∈ set ↔ ∃ range ∈ ranges, elem ∈ Set.Icc range.1 range.2

namespace IsRuns

variable {ranges : List (α × α)} {set : Set α} {first last elem : α}

theorem single (h : first ≤ last) : IsRuns [(first, last)] (Set.Icc first last) where
  ordered := by simpa using h
  sorted := List.pairwise_singleton _ _
  maximal := List.pairwise_singleton _ _
  mem_iff := by simp

/-- A range with a gap behind it, in front of all others. -/
theorem cons (h : first ≤ last) (hranges : IsRuns ranges set)
    (hlt : ∀ range ∈ ranges, elem ≤ range.1) (hgap : last < elem) (hcover : ¬ last ⋖ elem) :
    IsRuns ((first, last) :: ranges) (Set.Icc first last ∪ set) where
  ordered := by
    intro range hrange
    rcases List.mem_cons.mp hrange with rfl | hrange
    · exact h
    · exact hranges.ordered range hrange
  sorted := List.pairwise_cons.mpr
    ⟨fun range hrange => hgap.trans_le (hlt range hrange), hranges.sorted⟩
  maximal := by
    refine List.pairwise_cons.mpr ⟨fun range hrange hnext => ?_, hranges.maximal⟩
    rcases (hlt range hrange).eq_or_lt with heq | hbelow
    · exact hcover (heq ▸ hnext)
    · exact hnext.2 hgap hbelow
  mem_iff := by
    intro elem
    rw [Set.mem_union, hranges.mem_iff, List.exists_mem_cons_iff]

end IsRuns

/-- A range grows by the neighbour of its last element. -/
theorem Icc_union_singleton_of_covBy {first last next : α} (h : first ≤ last)
    (hnext : last ⋖ next) : Set.Icc first last ∪ {next} = Set.Icc first next := by
  ext elem
  rw [Set.mem_union, Set.mem_singleton_iff, Set.mem_Icc, Set.mem_Icc]
  constructor
  · rintro (⟨hfirst, hlast⟩ | rfl)
    · exact ⟨hfirst, hlast.trans hnext.1.le⟩
    · exact ⟨h.trans hnext.1.le, le_rfl⟩
  · rintro ⟨hfirst, hle⟩
    rcases hle.eq_or_lt with rfl | hlt
    · exact .inr rfl
    · exact .inl ⟨hfirst, hnext.le_of_lt hlt⟩

end Prusti.Lib

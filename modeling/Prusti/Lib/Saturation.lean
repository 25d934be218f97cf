/-
Rules that derive facts from facts, applied until nothing is new.
-/
import Mathlib.Data.List.Dedup
import Mathlib.Data.List.Perm.Subperm

namespace Prusti.Lib

universe u

/-- Rules that derive facts of a finite set. -/
structure Rules (α : Type u) where
  derive : List α → List α
  bound : List α
  derive_subset : ∀ {facts : List α}, facts ⊆ bound → derive facts ⊆ bound

namespace Rules

variable {α : Type u} [DecidableEq α] (rules : Rules α)

/-- The facts that one application of the rules adds. -/
def newFacts (facts : List α) : List α := (rules.derive facts).dedup.filter (· ∉ facts)

/-- Apply the rules until nothing changes, for a number of rounds at most. -/
def saturateRounds : Nat → List α → List α
  | 0, facts => facts
  | rounds + 1, facts =>
    if rules.newFacts facts = [] then facts
    else saturateRounds rounds (facts ++ rules.newFacts facts)

/-- The facts that can be derived. -/
def saturate : List α := rules.saturateRounds rules.bound.length []

variable {rules} {facts : List α}

theorem mem_newFacts_iff {fact : α} :
    fact ∈ rules.newFacts facts ↔ fact ∈ rules.derive facts ∧ fact ∉ facts := by
  rw [newFacts, List.mem_filter, List.mem_dedup, decide_eq_true_iff]

theorem nodup_append_newFacts (h : facts.Nodup) : (facts ++ rules.newFacts facts).Nodup := by
  rw [List.nodup_append']
  refine ⟨h, (List.nodup_dedup _).filter _, ?_⟩
  intro fact hold hnew
  exact (mem_newFacts_iff.mp hnew).2 hold

theorem append_newFacts_subset (h : facts ⊆ rules.bound) :
    facts ++ rules.newFacts facts ⊆ rules.bound :=
  List.append_subset.mpr ⟨h, fun _ hfact => rules.derive_subset h (mem_newFacts_iff.mp hfact).1⟩

/-- Enough rounds derive all there is: every round that changes something adds a fact. -/
theorem derive_saturateRounds {rounds : Nat} (hnodup : facts.Nodup)
    (hbound : facts ⊆ rules.bound) (hrounds : rules.bound.length ≤ facts.length + rounds) :
    rules.derive (rules.saturateRounds rounds facts) ⊆ rules.saturateRounds rounds facts := by
  induction rounds generalizing facts with
  | zero =>
    have hall : rules.bound ⊆ facts :=
      ((hnodup.subperm hbound).perm_of_length_le hrounds).symm.subset
    exact fun fact hfact => hall (rules.derive_subset hbound hfact)
  | succ rounds ih =>
    rw [saturateRounds]
    split
    · next hnone =>
        intro fact hfact
        by_contra hold
        have hnew := mem_newFacts_iff.mpr ⟨hfact, hold⟩
        rw [hnone] at hnew
        nomatch hnew
    · next hsome =>
        have hpos := List.length_pos_iff.mpr hsome
        apply ih (nodup_append_newFacts hnodup) (append_newFacts_subset hbound)
        rw [List.length_append]
        omega

/-- What the rules derive from the derived facts is derived already. -/
theorem derive_saturate : rules.derive rules.saturate ⊆ rules.saturate :=
  derive_saturateRounds List.nodup_nil (List.nil_subset _) (by simp)

theorem saturateRounds_induction {motive : α → Prop}
    (hderive : ∀ facts : List α, (∀ fact ∈ facts, motive fact) →
      ∀ fact ∈ rules.derive facts, motive fact)
    {rounds : Nat} (h : ∀ fact ∈ facts, motive fact) :
    ∀ fact ∈ rules.saturateRounds rounds facts, motive fact := by
  induction rounds generalizing facts with
  | zero => exact h
  | succ rounds ih =>
    rw [saturateRounds]
    split
    · exact h
    · apply ih
      intro fact hfact
      rcases List.mem_append.mp hfact with hold | hnew
      · exact h fact hold
      · exact hderive facts h fact (mem_newFacts_iff.mp hnew).1

variable (rules) in
/-- Rule induction. -/
theorem saturate_induction {motive : α → Prop}
    (hderive : ∀ facts : List α, (∀ fact ∈ facts, motive fact) →
      ∀ fact ∈ rules.derive facts, motive fact) :
    ∀ fact ∈ rules.saturate, motive fact :=
  saturateRounds_induction hderive (List.forall_mem_nil _)

end Rules

end Prusti.Lib

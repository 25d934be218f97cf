/-
The transitive closure of a finite relation, computed by rounds that compose all pairs
until nothing is new.
-/
import Mathlib.Data.Set.Card
import Mathlib.Order.CompletePartialOrder

namespace Prusti.Lib

universe u

variable {V : Type u}

/-- The relation of a set of pairs. -/
def InPairs (pairs : Finset (V × V)) (u v : V) : Prop := (u, v) ∈ pairs

variable [DecidableEq V] {pairs : Finset (V × V)} {u v w : V}

/-- Add the compositions of two pairs. -/
def composeRound (pairs : Finset (V × V)) : Finset (V × V) :=
  pairs ∪ ((pairs ×ˢ pairs).filter fun steps => steps.1.2 = steps.2.1).image
    fun steps => (steps.1.1, steps.2.2)

/-- Compose until nothing changes, for a number of rounds at most. -/
def closureRounds : Nat → Finset (V × V) → Finset (V × V)
  | 0, pairs => pairs
  | rounds + 1, pairs =>
    if composeRound pairs = pairs then pairs
    else closureRounds rounds (composeRound pairs)

/-- All pairs of a source and a target. -/
def endPairs (pairs : Finset (V × V)) : Finset (V × V) :=
  pairs.image Prod.fst ×ˢ pairs.image Prod.snd

theorem subset_composeRound : pairs ⊆ composeRound pairs := Finset.subset_union_left

theorem mem_composeRound_iff :
    (u, w) ∈ composeRound pairs ↔ (u, w) ∈ pairs ∨ ∃ v, (u, v) ∈ pairs ∧ (v, w) ∈ pairs := by
  rw [composeRound, Finset.mem_union, Finset.mem_image]
  refine or_congr_right ⟨?_, ?_⟩
  · rintro ⟨⟨⟨u', v⟩, v', w'⟩, hsteps, heq⟩
    obtain ⟨hmem, hmeet⟩ := Finset.mem_filter.mp hsteps
    obtain ⟨hfirst, hsecond⟩ := Finset.mem_product.mp hmem
    obtain ⟨rfl, rfl⟩ := Prod.mk.inj heq
    obtain rfl : v = v' := hmeet
    exact ⟨v, hfirst, hsecond⟩
  · rintro ⟨v, hfirst, hsecond⟩
    exact ⟨((u, v), (v, w)),
      Finset.mem_filter.mpr ⟨Finset.mem_product.mpr ⟨hfirst, hsecond⟩, rfl⟩, rfl⟩

theorem subset_closureRounds {rounds : Nat} : pairs ⊆ closureRounds rounds pairs := by
  induction rounds generalizing pairs with
  | zero => exact Finset.Subset.rfl
  | succ rounds ih =>
    rw [closureRounds]
    split
    · exact Finset.Subset.rfl
    · exact subset_composeRound.trans ih

theorem subset_endPairs : pairs ⊆ endPairs pairs := fun _ hpair =>
  Finset.mem_product.mpr
    ⟨Finset.mem_image_of_mem Prod.fst hpair, Finset.mem_image_of_mem Prod.snd hpair⟩

theorem composeRound_subset {sources targets : Finset V} (h : pairs ⊆ sources ×ˢ targets) :
    composeRound pairs ⊆ sources ×ˢ targets := by
  rintro ⟨u, w⟩ hpair
  rcases mem_composeRound_iff.mp hpair with hpair | ⟨v, hfirst, hsecond⟩
  · exact h hpair
  · exact Finset.mem_product.mpr
      ⟨(Finset.mem_product.mp (h hfirst)).1, (Finset.mem_product.mp (h hsecond)).2⟩

/-- Every round that changes something adds one of the pairs that are left. -/
theorem composeRound_closureRounds {sources targets : Finset V} {rounds : Nat}
    (h : pairs ⊆ sources ×ˢ targets) (hrounds : (sources ×ˢ targets \ pairs).card ≤ rounds) :
    composeRound (closureRounds rounds pairs) = closureRounds rounds pairs := by
  induction rounds generalizing pairs with
  | zero =>
    have hempty := Finset.card_eq_zero.mp (Nat.le_zero.mp hrounds)
    have hall : sources ×ˢ targets ⊆ pairs := Finset.sdiff_eq_empty_iff_subset.mp hempty
    exact ((composeRound_subset h).trans hall).antisymm subset_composeRound
  | succ rounds ih =>
    rw [closureRounds]
    split
    · next hsame => exact hsame
    · next hchanged =>
        have hbound := composeRound_subset h
        refine ih hbound (Nat.le_of_lt_succ (lt_of_lt_of_le (Finset.card_lt_card ?_) hrounds))
        obtain ⟨pair, hnew, hold⟩ := Finset.exists_of_ssubset
          (subset_composeRound.ssubset_of_ne (Ne.symm hchanged))
        refine Finset.ssubset_iff_of_subset (Finset.sdiff_subset_sdiff Finset.Subset.rfl
          subset_composeRound) |>.mpr ⟨pair, ?_, ?_⟩
        · exact Finset.mem_sdiff.mpr ⟨hbound hnew, hold⟩
        · exact fun hmem => (Finset.mem_sdiff.mp hmem).2 hnew

theorem transGen_of_mem_closureRounds {rounds : Nat}
    (h : (u, v) ∈ closureRounds rounds pairs) : Relation.TransGen (InPairs pairs) u v := by
  induction rounds generalizing pairs u v with
  | zero => exact .single h
  | succ rounds ih =>
    rw [closureRounds] at h
    split at h
    · exact .single h
    · refine Relation.TransGen.trans_induction_on (ih h) ?_ fun _ _ => .trans
      intro u v hstep
      rcases mem_composeRound_iff.mp hstep with hpair | ⟨w, hfirst, hsecond⟩
      · exact .single hpair
      · exact .tail (.single hfirst) hsecond

/-- Enough rounds compute the transitive closure. -/
theorem mem_closureRounds_iff {rounds : Nat} (hrounds : (endPairs pairs).card ≤ rounds) :
    (u, v) ∈ closureRounds rounds pairs ↔ Relation.TransGen (InPairs pairs) u v := by
  refine ⟨transGen_of_mem_closureRounds, fun hpath => ?_⟩
  have hclosed := composeRound_closureRounds subset_endPairs
    ((Finset.card_le_card Finset.sdiff_subset).trans hrounds)
  induction hpath with
  | single hpair => exact subset_closureRounds hpair
  | tail _ hpair ih =>
    rw [← hclosed]
    exact mem_composeRound_iff.mpr (.inr ⟨_, ih, subset_closureRounds hpair⟩)

section Reduction

open Relation

variable {V : Type u} {r s : V → V → Prop} {u v w : V}

/-- Related with nothing in between. -/
def Direct (r : V → V → Prop) (u v : V) : Prop := r u v ∧ ∀ w, r u w → ¬ r w v

/-- What lies between two elements. -/
def Between (r : V → V → Prop) (u v : V) : Set V := { w | r u w ∧ r w v }

/-- The intervals get smaller towards their ends. -/
theorem between_ssubset [IsStrictOrder V r] (hfirst : r u w) (hsecond : r w v) :
    Between r u w ⊂ Between r u v ∧ Between r w v ⊂ Between r u v := by
  refine ⟨⟨?_, ?_⟩, ?_, ?_⟩
  · exact fun _ hx => ⟨hx.1, Trans.trans hx.2 hsecond⟩
  · exact fun hsub => irrefl w (hsub ⟨hfirst, hsecond⟩).2
  · exact fun _ hx => ⟨Trans.trans hfirst hx.1, hx.2⟩
  · exact fun hsub => irrefl w (hsub ⟨hfirst, hsecond⟩).1

/-- A strict order with finite intervals is generated by its direct pairs. -/
theorem transGen_direct_iff [IsStrictOrder V r] (hfinite : ∀ u v, (Between r u v).Finite) :
    TransGen (Direct r) u v ↔ r u v := by
  constructor
  · intro hpath
    induction hpath with
    | single hstep => exact hstep.1
    | tail _ hstep ih => exact Trans.trans ih hstep.1
  · intro h
    induction hcard : (Between r u v).ncard using Nat.strong_induction_on generalizing u v with
    | h card ih =>
      subst hcard
      by_cases hdirect : ∀ w, r u w → ¬ r w v
      · exact .single ⟨h, hdirect⟩
      · simp only [not_forall, not_not] at hdirect
        obtain ⟨w, hfirst, hsecond⟩ := hdirect
        obtain ⟨hleft, hright⟩ := between_ssubset hfirst hsecond
        exact (ih _ (Set.ncard_lt_ncard hleft (hfinite u v)) hfirst rfl).trans
          (ih _ (Set.ncard_lt_ncard hright (hfinite u v)) hsecond rfl)

/-- The direct pairs belong to every relation that generates the order. -/
theorem of_direct (h : ∀ u v, TransGen s u v ↔ r u v) (hdirect : Direct r u v) : s u v := by
  rcases TransGen.head'_iff.mp ((h u v).mpr hdirect.1) with ⟨w, hstep, hrest⟩
  rcases reflTransGen_iff_eq_or_transGen.mp hrest with rfl | hrest
  · exact hstep
  · exact absurd ((h w v).mp hrest) (hdirect.2 w ((h u w).mp (.single hstep)))

end Reduction

end Prusti.Lib

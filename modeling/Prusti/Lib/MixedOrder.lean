/-
Orders that put the nodes of a forest before their ancestors and compare
unrelated nodes by a key.  Such a mixture is total if unrelated nodes have
different keys, and then transitive exactly if no key of an unrelated node lies
between those of an ancestor and a descendant.
-/
import Mathlib.Order.Lattice

namespace Prusti.Lib

universe u v

/-- Being strictly below another node; the nodes above a node are on one
path. -/
structure IsForest {α : Type u} (below : α → α → Prop) : Prop where
  irrefl : ∀ a, ¬ below a a
  trans : ∀ {a b c}, below a b → below b c → below a c
  path : ∀ {a b c}, below c a → below c b → a = b ∨ below a b ∨ below b a

variable {α : Type u} {κ : Type v} [LinearOrder κ] {below : α → α → Prop}
  {key : α → κ}

/-- Different nodes of which neither lies below the other. -/
structure Unrelated (below : α → α → Prop) (a b : α) : Prop where
  ne : a ≠ b
  notBelow : ¬ below a b
  notAbove : ¬ below b a

theorem Unrelated.symm {a b : α} (h : Unrelated below a b) : Unrelated below b a :=
  ⟨h.ne.symm, h.notAbove, h.notBelow⟩

/-- A node stands before the nodes above it, and before the unrelated nodes with
a larger key. -/
def MixedLt (below : α → α → Prop) (key : α → κ) (a b : α) : Prop :=
  below a b ∨ Unrelated below a b ∧ key a < key b

/-- Unrelated nodes have different keys. -/
def KeysDistinct (below : α → α → Prop) (key : α → κ) : Prop :=
  ∀ a b, Unrelated below a b → key a ≠ key b

/-- No node unrelated to an ancestor has a key between it and a descendant. -/
def NoneBetween (below : α → α → Prop) (key : α → κ) : Prop :=
  ∀ top bottom other, below bottom top → Unrelated below other top →
    ¬ (key top < key other ∧ key other < key bottom)

namespace IsForest

variable {top bottom other : α}

section

variable (h : IsForest below) (hbelow : below bottom top) (hother : Unrelated below other top)

include h hbelow hother

/-- What is unrelated to a node is unrelated to the nodes below it. -/
theorem unrelated_of_below (hnot : ¬ below other bottom) : Unrelated below other bottom := by
  refine ⟨?_, hnot, ?_⟩
  · rintro rfl
    exact hother.notBelow hbelow
  · intro habove
    rcases h.path hbelow habove with heq | htop | hother'
    · exact hother.ne heq.symm
    · exact hother.notAbove htop
    · exact hother.notBelow hother'

theorem not_below_of_unrelated : ¬ below other bottom :=
  fun hlower => hother.notBelow (h.trans hlower hbelow)

theorem unrelated : Unrelated below other bottom :=
  h.unrelated_of_below hbelow hother (h.not_below_of_unrelated hbelow hother)

end

/-- The mixture relates every two nodes if the keys are distinct. -/
theorem mixedLt_total (hkeys : KeysDistinct below key) {a b : α} (hne : a ≠ b) :
    MixedLt below key a b ∨ MixedLt below key b a := by
  by_cases hab : below a b
  · exact .inl (.inl hab)
  · by_cases hba : below b a
    · exact .inr (.inl hba)
    · have hunrelated : Unrelated below a b := ⟨hne, hab, hba⟩
      rcases lt_or_gt_of_ne (hkeys a b hunrelated) with hlt | hgt
      · exact .inl (.inr ⟨hunrelated, hlt⟩)
      · exact .inr (.inr ⟨hunrelated.symm, hgt⟩)

theorem mixedLt_asymm (h : IsForest below) {a b : α}
    (hab : MixedLt below key a b) : ¬ MixedLt below key b a := by
  rintro (hba | ⟨hba, hlt⟩) <;> rcases hab with hab | ⟨hab, hlt'⟩
  · exact h.irrefl a (h.trans hab hba)
  · exact hab.notAbove hba
  · exact hba.notAbove hab
  · exact lt_asymm hlt hlt'

/-- Nothing stands between a node and a node above it in the wrong order. -/
theorem not_mixedLt_of_below (h : IsForest below) (hnone : NoneBetween below key)
    (hbelow : below bottom top) (hlt : MixedLt below key top other) :
    ¬ MixedLt below key other bottom := by
  rcases hlt with htop | ⟨hunrelated, hlt⟩
  · exact fun hother => h.mixedLt_asymm (.inl (h.trans hbelow htop)) hother
  · rintro (hlower | ⟨-, hlt'⟩)
    · exact hunrelated.notAbove (h.trans hlower hbelow)
    · exact hnone top bottom other hbelow hunrelated.symm ⟨hlt, hlt'⟩

/-- The mixture is transitive exactly if no key lies between. -/
theorem mixedLt_trans_iff (h : IsForest below) (hkeys : KeysDistinct below key) :
    (∀ a b c, MixedLt below key a b → MixedLt below key b c →
      MixedLt below key a c) ↔ NoneBetween below key := by
  constructor
  · rintro htrans top bottom other hbelow hother ⟨hlt, hlt'⟩
    have hcycle := htrans top other bottom (.inr ⟨hother.symm, hlt⟩)
      (.inr ⟨h.unrelated hbelow hother, hlt'⟩)
    exact h.mixedLt_asymm (.inl hbelow) hcycle
  · intro hnone a b c hab hbc
    have hac : a ≠ c := by
      rintro rfl
      exact h.mixedLt_asymm hab hbc
    by_contra hnot
    have hca := (mixedLt_total hkeys hac).resolve_left hnot
    -- the three steps form a cycle, which has a step down and not only keys
    rcases hab with hab | ⟨hab, hltab⟩
    · exact h.not_mixedLt_of_below hnone hab hbc hca
    · rcases hbc with hbc | ⟨hbc, hltbc⟩
      · exact h.not_mixedLt_of_below hnone hbc hca (.inr ⟨hab, hltab⟩)
      · rcases hca with hca | ⟨hca, hltca⟩
        · exact h.not_mixedLt_of_below hnone hca (.inr ⟨hab, hltab⟩) (.inr ⟨hbc, hltbc⟩)
        · exact lt_asymm hltca (lt_trans hltab hltbc)

end IsForest

end Prusti.Lib

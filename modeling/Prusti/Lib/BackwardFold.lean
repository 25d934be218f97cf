/-
Values of the vertices of a graph, each combined from the values of the vertices next to
it.  The recursion has a value exactly where it meets no cycle.
-/
import Mathlib.Logic.Hydra
import Mathlib.Tactic.Abel
import Prusti.Lib.Unrolling

namespace Prusti.Lib

universe u v

variable {V : Type u} {S : Type v}

/-- The value of a vertex is combined from the values of the vertices next to it. -/
inductive Folds (next : V → List V) (combine : V → (V → Option S) → S → Prop) : V → S → Prop where
  | mk {v : V} {s : S} (values : V → Option S) :
      (∀ w, (∃ t, values w = some t) ↔ w ∈ next v) →
      (∀ w t, values w = some t → Folds next combine w t) →
      combine v values s → Folds next combine v s

namespace Folds

variable {next : V → List V} {combine : V → (V → Option S) → S → Prop} {v : V} {s t : S}

theorem unique (hcombine : ∀ {v values s t}, combine v values s → combine v values t → s = t)
    (h : Folds next combine v s) (h' : Folds next combine v t) : s = t := by
  induction h generalizing t with
  | @mk v s values hdomain hvalues hcomb ih =>
    obtain ⟨values', hdomain', hvalues', hcomb'⟩ := h'
    have heq : values = values' := funext fun w => by
      cases hw : values w with
      | none =>
        cases hw' : values' w with
        | none => rfl
        | some t =>
          obtain ⟨_, hsome⟩ := (hdomain w).mpr ((hdomain' w).mp ⟨t, hw'⟩)
          rw [hw] at hsome
          cases hsome
      | some s =>
        obtain ⟨t, ht⟩ := (hdomain' w).mpr ((hdomain w).mp ⟨s, hw⟩)
        rw [ht, ih w s hw (hvalues' w t ht)]
    subst heq
    exact hcombine hcomb hcomb'

theorem acyclicFrom (h : Folds next combine v s) : AcyclicFrom next v := by
  induction h with
  | @mk v s values hdomain hvalues hcomb ih =>
    refine acyclicFrom_of_next fun w hw => ?_
    obtain ⟨t, ht⟩ := (hdomain w).mpr hw
    exact ih w t ht

end Folds

/-- The order in which waiting vertices are taken: in each round one of them, and what is
left. -/
structure TakeOrder (V : Type u) where
  take : Nat → List V → Option (V × List V)
  perm : ∀ {round waiting v rest}, take round waiting = some (v, rest) → waiting.Perm (v :: rest)
  eq_nil : ∀ {round waiting}, take round waiting = none → waiting = []

namespace TakeOrder

/-- The vertex that waits for the shortest time is taken first. -/
def last : TakeOrder V where
  take _ waiting := waiting.getLast?.map fun v => (v, waiting.dropLast)
  perm {_ waiting v rest} h := by
    obtain ⟨_, hlast, heq⟩ := Option.map_eq_some_iff.mp h
    cases heq
    rw [List.getLast?_eq_some_iff] at hlast
    obtain ⟨front, rfl⟩ := hlast
    rw [List.dropLast_concat]
    exact List.perm_append_singleton v front
  eq_nil h := List.getLast?_eq_none_iff.mp (Option.map_eq_none_iff.mp h)

/-- A vertex that is taken gives way to finitely many smaller ones. -/
theorem cutExpand (order : TakeOrder V) {r : V → V → Prop} {round : Nat}
    {waiting rest pushed : List V} {v : V}
    (htake : order.take round waiting = some (v, rest)) (hpushed : ∀ w ∈ pushed, r w v) :
    Relation.CutExpand r (rest ++ pushed : List V) (waiting : Multiset V) := by
  refine ⟨pushed, v, fun w hw => hpushed w (Multiset.mem_coe.mp hw), ?_⟩
  rw [Multiset.coe_eq_coe.mpr (order.perm htake), ← Multiset.cons_coe, ← Multiset.coe_add,
    ← Multiset.singleton_add]
  abel

end TakeOrder

/-- Where everything can be unrolled, the steps are well-founded. -/
theorem wellFounded_of_unroll {next : V → List V}
    (h : ∀ v, ∃ fuel trace, unroll next fuel v = some trace) :
    WellFounded fun w v => w ∈ next v := by
  refine ⟨fun v => ?_⟩
  obtain ⟨fuel, trace, hunroll⟩ := h v
  induction fuel generalizing v trace with
  | zero => cases hunroll
  | succ fuel ih =>
    obtain ⟨parts, hparts, -⟩ := unroll_succ_eq_some_iff.mp hunroll
    refine ⟨v, fun w hw => ?_⟩
    obtain ⟨part, -, hpart⟩ := exists_part hparts hw
    exact ih w part hpart

end Prusti.Lib

/-
Depth-first exploration of a graph that is given by its successor lists.  The
exploration lists the vertices in the order in which they are left, so that a
vertex stands after all its successors but those that lie on a cycle with it.
-/
import Mathlib.Data.Set.Insert
import Prusti.Lib.Positions

namespace Prusti.Lib

universe u

variable {V : Type u}

/-- The edges of a graph. -/
def Edge (succ : V → List V) (u v : V) : Prop := v ∈ succ u

/-- There is a possibly empty path. -/
def Reaches (succ : V → List V) : V → V → Prop := Relation.ReflTransGen (Edge succ)

/-- No vertex that can be reached from `root` lies on a cycle. -/
def AcyclicFrom (succ : V → List V) (root : V) : Prop :=
  ∀ v, Reaches succ root v → ¬ Relation.TransGen (Edge succ) v v

/-- `Explore succ seen work left seen'`: with the vertices of `seen` marked,
exploring the vertices of `work` one after the other leaves the vertices
`left`, in this order, and marks the vertices of `seen'`. -/
inductive Explore (succ : V → List V) : Set V → List V → List V → Set V → Prop where
  | nil {seen : Set V} : Explore succ seen [] [] seen
  | skip {seen seen' : Set V} {v : V} {work left : List V} :
      v ∈ seen → Explore succ seen work left seen' →
      Explore succ seen (v :: work) left seen'
  | visit {seen inner seen' : Set V} {v : V} {work below left : List V} :
      v ∉ seen →
      Explore succ (insert v seen) (succ v) below inner →
      Explore succ inner work left seen' →
      Explore succ seen (v :: work) (below ++ v :: left) seen'

namespace Explore

variable {succ : V → List V} {seen seen' : Set V} {work left : List V}

section

variable (h : Explore succ seen work left seen')

include h

/-- The vertices that get marked are those that are left. -/
theorem mem_marked_iff (v : V) : v ∈ seen' ↔ v ∈ seen ∨ v ∈ left := by
  induction h with
  | nil => simp
  | skip _ _ ih => exact ih
  | @visit seen inner seen' w work below left _ _ _ ih ih' =>
    rw [ih', ih, Set.mem_insert_iff, List.mem_append, List.mem_cons]
    tauto

/-- The work list gets marked. -/
theorem work_marked : ∀ v ∈ work, v ∈ seen' := by
  induction h with
  | nil => simp
  | @skip seen seen' w work left hw h ih =>
    intro v hv
    rcases List.mem_cons.mp hv with rfl | hv
    · exact (h.mem_marked_iff v).mpr (.inl hw)
    · exact ih v hv
  | @visit seen inner seen' w work below left _ h h' _ ih =>
    intro v hv
    rcases List.mem_cons.mp hv with rfl | hv
    · have hinner : v ∈ inner := (h.mem_marked_iff v).mpr (.inl (Set.mem_insert v seen))
      exact (h'.mem_marked_iff v).mpr (.inl hinner)
    · exact ih v hv

/-- A vertex is left only if it was not marked before. -/
theorem not_mem_seen : ∀ v ∈ left, v ∉ seen := by
  induction h with
  | nil => simp
  | skip _ _ ih => exact ih
  | @visit seen inner seen' w work below left hw h _ ih ih' =>
    intro v hv hseen
    rcases List.mem_append.mp hv with hv | hv
    · exact ih v hv (Set.mem_insert_of_mem w hseen)
    rcases List.mem_cons.mp hv with rfl | hv
    · exact hw hseen
    · apply ih' v hv
      exact (h.mem_marked_iff v).mpr (.inl (Set.mem_insert_of_mem w hseen))

/-- Every vertex is left once. -/
theorem nodup : left.Nodup := by
  induction h with
  | nil => exact List.nodup_nil
  | skip _ _ ih => exact ih
  | @visit seen inner seen' w work below left hw h h' ih ih' =>
    have hinner : ∀ v, v ∈ below ∨ v = w → v ∈ inner := by
      intro v hv
      rw [h.mem_marked_iff]
      rcases hv with hv | rfl
      · exact .inr hv
      · exact .inl (Set.mem_insert v seen)
    have hnew : ∀ v, v ∈ left → ¬ (v ∈ below ∨ v = w) := by
      intro v hv hold
      exact h'.not_mem_seen v hv (hinner v hold)
    refine List.nodup_append'.mpr ⟨ih, List.nodup_cons.mpr ⟨?_, ih'⟩, ?_⟩
    · intro hw'
      exact hnew w hw' (.inr rfl)
    · intro v hbelow hv
      rcases List.mem_cons.mp hv with rfl | hv
      · exact h.not_mem_seen v hbelow (Set.mem_insert v seen)
      · exact hnew v hv (.inl hbelow)

/-- Every vertex that is left is reached from the work list. -/
theorem reaches : ∀ v ∈ left, ∃ w ∈ work, Reaches succ w v := by
  induction h with
  | nil => simp
  | skip _ _ ih =>
    intro v hv
    obtain ⟨w, hw, hreach⟩ := ih v hv
    exact ⟨w, List.mem_cons_of_mem _ hw, hreach⟩
  | @visit seen inner seen' w work below left _ _ _ ih ih' =>
    intro v hv
    rcases List.mem_append.mp hv with hv | hv
    · obtain ⟨x, hx, hreach⟩ := ih v hv
      exact ⟨w, List.mem_cons_self, .head hx hreach⟩
    rcases List.mem_cons.mp hv with rfl | hv
    · exact ⟨v, List.mem_cons_self, .refl⟩
    · obtain ⟨x, hx, hreach⟩ := ih' v hv
      exact ⟨x, List.mem_cons_of_mem _ hx, hreach⟩

/-- What a vertex that is left points to gets marked. -/
theorem succ_marked : ∀ u ∈ left, ∀ v ∈ succ u, v ∈ seen' := by
  induction h with
  | nil => simp
  | skip _ _ ih => exact ih
  | @visit seen inner seen' w work below left _ h h' ih ih' =>
    intro u hu v hv
    rcases List.mem_append.mp hu with hu | hu
    · exact (h'.mem_marked_iff v).mpr (.inl (ih u hu v hv))
    rcases List.mem_cons.mp hu with rfl | hu
    · exact (h'.mem_marked_iff v).mpr (.inl (h.work_marked v hv))
    · exact ih' u hu v hv

end

/-- With nothing marked at the beginning, what can be reached gets marked. -/
theorem mem_marked_iff_reaches (h : Explore succ ∅ work left seen') (v : V) :
    v ∈ seen' ↔ ∃ w ∈ work, Reaches succ w v := by
  constructor
  · intro hv
    rcases (h.mem_marked_iff v).mp hv with hv | hv
    · cases hv
    · exact h.reaches v hv
  · rintro ⟨w, hw, hreach⟩
    induction hreach with
    | refl => exact h.work_marked w hw
    | tail _ hedge ih =>
      rcases (h.mem_marked_iff _).mp ih with ih | ih
      · cases ih
      · exact h.succ_marked _ ih _ hedge

/-- The order in which the vertices are left: a successor was marked at the
beginning, or is left earlier, or there is a path back from it. -/
theorem left_order (h : Explore succ seen work left seen') :
    ∀ u ∈ left, ∀ v ∈ succ u, v ∈ seen ∨ List.Sublist [v, u] left ∨ Reaches succ v u := by
  induction h with
  | nil => simp
  | skip _ _ ih => exact ih
  | @visit seen inner seen' w work below left hw h h' ih ih' =>
    intro u hu v hv
    rcases List.mem_append.mp hu with hbelow | hrest
    · -- below `w`, where `w` itself is marked already
      rcases ih u hbelow v hv with hseen | hsub | hreach
      · rcases Set.mem_insert_iff.mp hseen with hvw | hseen
        · obtain ⟨x, hx, hreach⟩ := h.reaches u hbelow
          exact .inr (.inr (hvw ▸ .head hx hreach))
        · exact .inl hseen
      · exact .inr (.inl (hsub.trans (List.sublist_append_left _ _)))
      · exact .inr (.inr hreach)
    rcases List.mem_cons.mp hrest with huw | hleft
    · have hinner := h.work_marked v (huw ▸ hv)
      rw [h.mem_marked_iff, Set.mem_insert_iff] at hinner
      rcases hinner with (hvw | hseen) | hbelow
      · exact .inr (.inr (hvw.trans huw.symm ▸ .refl))
      · exact .inl hseen
      · refine .inr (.inl ?_)
        exact List.Sublist.append (List.singleton_sublist.mpr hbelow)
          (List.singleton_sublist.mpr hrest)
    · rcases ih' u hleft v hv with hinner | hsub | hreach
      · rw [h.mem_marked_iff, Set.mem_insert_iff] at hinner
        rcases hinner with (hvw | hseen) | hbelow
        · refine .inr (.inl ?_)
          refine List.Sublist.trans ?_ (List.sublist_append_right _ _)
          exact hvw ▸ (List.singleton_sublist.mpr hleft).cons_cons v
        · exact .inl hseen
        · refine .inr (.inl ?_)
          exact List.Sublist.append (List.singleton_sublist.mpr hbelow)
            (List.singleton_sublist.mpr hrest)
      · refine .inr (.inl (hsub.trans ?_))
        exact (List.sublist_cons_self _ _).trans (List.sublist_append_right _ _)
      · exact .inr (.inr hreach)

end Explore

/-- A list without repetition in which the tail of every edge stands before
its head leaves no room for a cycle. -/
theorem acyclicFrom_of_sorted {succ : V → List V} {root : V} {order : List V} (hnodup : order.Nodup)
    (hsorted : ∀ u v, Reaches succ root u → Edge succ u v → List.Sublist [u, v] order) :
    AcyclicFrom succ root := by
  classical
  intro v hreach hcycle
  have hpath : ∀ w, Relation.TransGen (Edge succ) v w → order.idxOf v < order.idxOf w := by
    intro w hpath
    induction hpath with
    | single hedge => exact idxOf_lt_of_pair_sublist hnodup (hsorted _ _ hreach hedge)
    | tail hpath hedge ih =>
      have hreach' := hreach.trans hpath.to_reflTransGen
      exact ih.trans (idxOf_lt_of_pair_sublist hnodup (hsorted _ _ hreach' hedge))
  exact Nat.lt_irrefl _ (hpath v hcycle)

/-- A part of a list without repetition keeps the order of a pair. -/
theorem pair_sublist_of_part {order part : List V} {u v : V}
    (hnodup : order.Nodup) (hpart : List.Sublist part order)
    (hu : u ∈ part) (hv : v ∈ part) (hpair : List.Sublist [u, v] order) :
    List.Sublist [u, v] part := by
  classical
  have hlt := idxOf_lt_of_pair_sublist hnodup hpair
  obtain ⟨front, back, rfl⟩ := List.append_of_mem hv
  rcases List.mem_append.mp hu with hfront | hback
  · exact List.Sublist.append (List.singleton_sublist.mpr hfront)
      (List.singleton_sublist.mpr List.mem_cons_self)
  rcases List.mem_cons.mp hback with rfl | hback
  · exact absurd hlt (Nat.lt_irrefl _)
  · have hpair' : List.Sublist [v, u] (front ++ v :: back) :=
      ((List.singleton_sublist.mpr hback).cons_cons v).trans (List.sublist_append_right _ _)
    have hgt := idxOf_lt_of_pair_sublist hnodup (hpair'.trans hpart)
    exact absurd hlt (Nat.lt_asymm hgt)

/-- In a list without repetition, what stands before an element stands in
front of its only occurrence. -/
theorem mem_of_pair_sublist {front back : List V} {u v : V} (hnodup : (front ++ v :: back).Nodup)
    (hsub : List.Sublist [u, v] (front ++ v :: back)) : u ∈ front := by
  have hback : v ∉ back := (List.nodup_cons.mp (List.nodup_append'.mp hnodup).2.1).1
  obtain ⟨first, second, hpair, hfirst, hsecond⟩ := List.sublist_append_iff.mp hsub
  have hu : u ∈ first := by
    match first, hpair with
    | [], hpair =>
      rw [List.nil_append] at hpair
      have hsecond : List.Sublist [u, v] (v :: back) := hpair ▸ hsecond
      have htail := hsecond.tail
      exact absurd (List.singleton_sublist.mp htail) hback
    | w :: _, hpair =>
      rw [List.cons_append, List.cons.injEq] at hpair
      exact hpair.1 ▸ List.mem_cons_self
  exact hfirst.subset hu

end Prusti.Lib

/-
Positions in lists without repetition: a sublist keeps the order, and cutting a list
separates its elements by their positions; marks at positions.
-/
import Mathlib.Data.List.Sublists

namespace Prusti.Lib

universe u

variable {V : Type u} [DecidableEq V] {order sub : List V} {u v : V} {position : Nat}

/-- In a list without repetition, a pair stands in the order of the
positions. -/
theorem idxOf_lt_of_pair_sublist (hnodup : order.Nodup) (hsub : List.Sublist [u, v] order) :
    order.idxOf u < order.idxOf v := by
  obtain ⟨front, back, rfl, hu, hv⟩ := List.cons_sublist_iff.mp hsub
  have hv : v ∈ back := List.singleton_sublist.mp hv
  have hdisjoint := (List.nodup_append'.mp hnodup).2.2
  rw [List.idxOf_append_of_mem hu, List.idxOf_append_of_notMem (fun hv' => hdisjoint hv' hv)]
  exact Nat.lt_add_right _ (List.idxOf_lt_length_of_mem hu)

/-- The first element of a sublist stands before its other ones. -/
theorem idxOf_first_lt (hnodup : order.Nodup) (hsub : List.Sublist sub order)
    (hfirst : sub.head? = some u) (hv : v ∈ sub) (hne : v ≠ u) :
    order.idxOf u < order.idxOf v := by
  obtain ⟨rest, rfl⟩ := List.head?_eq_some_iff.mp hfirst
  have hv := (List.mem_cons.mp hv).resolve_left hne
  exact idxOf_lt_of_pair_sublist hnodup (((List.singleton_sublist.mpr hv).cons_cons u).trans hsub)

theorem idxOf_le_getLast (hnodup : order.Nodup) (hsub : List.Sublist sub order)
    (hlast : sub.getLast? = some u) (hv : v ∈ sub) : order.idxOf v ≤ order.idxOf u := by
  obtain ⟨front, rfl⟩ := List.getLast?_eq_some_iff.mp hlast
  rcases List.mem_append.mp hv with hv | hv
  · apply Nat.le_of_lt
    apply idxOf_lt_of_pair_sublist hnodup
    exact (List.Sublist.append (List.singleton_sublist.mpr hv) (List.Sublist.refl [u])).trans hsub
  · rw [List.mem_singleton.mp hv]

theorem pair_sublist_of_idxOf_lt (hv : v ∈ sub) (hlt : sub.idxOf u < sub.idxOf v) :
    List.Sublist [u, v] sub := by
  have hu : u ∈ sub := by
    rw [← List.idxOf_lt_length_iff]
    exact hlt.trans (List.idxOf_lt_length_of_mem hv)
  have hfront := (List.mem_take_iff_idxOf_lt hu).mpr hlt
  have hback : v ∈ sub.drop (sub.idxOf v) := by
    rw [List.drop_eq_getElem_cons (List.idxOf_lt_length_of_mem hv), List.getElem_idxOf]
    exact List.mem_cons_self
  rw [← List.take_append_drop (sub.idxOf v) sub]
  exact List.Sublist.append (List.singleton_sublist.mpr hfront) (List.singleton_sublist.mpr hback)

/-- A sublist keeps the order. -/
theorem idxOf_lt_idxOf_iff (hnodup : order.Nodup) (hsub : List.Sublist sub order)
    (hu : u ∈ sub) (hv : v ∈ sub) :
    sub.idxOf u < sub.idxOf v ↔ order.idxOf u < order.idxOf v := by
  have hmono : ∀ {a b}, b ∈ sub → sub.idxOf a < sub.idxOf b → order.idxOf a < order.idxOf b :=
    fun hb hlt => idxOf_lt_of_pair_sublist hnodup ((pair_sublist_of_idxOf_lt hb hlt).trans hsub)
  refine ⟨hmono hv, fun hlt => ?_⟩
  by_contra hge
  rcases Nat.lt_or_eq_of_le (Nat.le_of_not_lt hge) with hgt | heq
  · exact Nat.lt_asymm hlt (hmono hu hgt)
  · rw [List.idxOf_inj hv] at heq
    exact Nat.lt_irrefl _ (heq ▸ hlt)

theorem findIdx?_eq_idxOf (hv : v ∈ order) : order.findIdx? (· = v) = some (order.idxOf v) := by
  have hlt := List.idxOf_lt_length_of_mem hv
  refine List.findIdx?_eq_some_iff_getElem.mpr ⟨hlt, by simp, fun index hindex => ?_⟩
  have hne := List.not_of_lt_findIdx (p := (· == v)) hindex
  simpa using hne

theorem mem_take_iff : v ∈ order.take position ↔ v ∈ order ∧ order.idxOf v < position := by
  constructor
  · exact fun htake => ⟨List.mem_of_mem_take htake,
      (List.mem_take_iff_idxOf_lt (List.mem_of_mem_take htake)).mp htake⟩
  · exact fun ⟨hv, hlt⟩ => (List.mem_take_iff_idxOf_lt hv).mpr hlt

theorem mem_drop_iff (hnodup : order.Nodup) :
    v ∈ order.drop position ↔ v ∈ order ∧ position ≤ order.idxOf v := by
  constructor
  · intro hdrop
    refine ⟨List.mem_of_mem_drop hdrop, Nat.le_of_not_lt fun hlt => ?_⟩
    exact (List.disjoint_take_drop hnodup le_rfl)
      (mem_take_iff.mpr ⟨List.mem_of_mem_drop hdrop, hlt⟩) hdrop
  · rintro ⟨hv, hle⟩
    rw [← List.take_append_drop position order, List.mem_append] at hv
    exact hv.resolve_left fun htake => Nat.not_lt.mpr hle (mem_take_iff.mp htake).2

theorem getElem?_set_true {marks : List Bool} (hlt : position < marks.length) (index : Nat) :
    (marks.set position true)[index]? = some true ↔
      index = position ∨ marks[index]? = some true := by
  rw [List.getElem?_set]
  by_cases heq : position = index
  · subst heq
    simp [hlt]
  · simp [heq, Ne.symm heq]

end Prusti.Lib

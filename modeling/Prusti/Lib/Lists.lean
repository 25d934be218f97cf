/-
Lists whose elements correspond to each other one by one, and loops that compute
such a list and may fail.
-/
import Mathlib.Data.List.Forall2
import Prusti.Lib.Outcome

namespace Prusti.Lib

universe u v

variable {α : Type u} {β : Type v} {R : α → β → Prop} {items : List α}
  {items' : List β}

variable {item : α} {f : α → Option β}

section

variable (h : List.Forall₂ R items items')

include h

theorem forall₂_getElem? {idx : Nat} (hitem : items[idx]? = some item) :
    ∃ item', items'[idx]? = some item' ∧ R item item' := by
  induction h generalizing idx with
  | nil => cases hitem
  | cons hfirst _ ih =>
    cases idx with
    | zero =>
      cases hitem
      exact ⟨_, rfl, hfirst⟩
    | succ idx => exact ih hitem

theorem exists_of_forall₂_mem (hitem : item ∈ items) : ∃ item' ∈ items', R item item' := by
  obtain ⟨idx, hidx⟩ := List.mem_iff_getElem?.mp hitem
  obtain ⟨item', hitem', hrel⟩ := forall₂_getElem? h hidx
  exact ⟨item', List.mem_of_getElem? hitem', hrel⟩

theorem exists_of_forall₂_mem_right {item' : β} (hitem : item' ∈ items') :
    ∃ item ∈ items, R item item' :=
  exists_of_forall₂_mem (List.Forall₂.flip h) hitem

theorem forall₂_imp_mem {S : α → β → Prop}
    (himp : ∀ item ∈ items, ∀ item' ∈ items', R item item' → S item item') :
    List.Forall₂ S items items' := by
  induction h with
  | nil => exact .nil
  | cons hfirst _ ih =>
    refine .cons (himp _ List.mem_cons_self _ List.mem_cons_self hfirst) (ih ?_)
    intro item hitem item' hitem'
    exact himp item (List.mem_cons_of_mem _ hitem) item' (List.mem_cons_of_mem _ hitem')

theorem dropLast_of_forall₂ : List.Forall₂ R items.dropLast items'.dropLast := by
  rw [List.dropLast_eq_take, List.dropLast_eq_take, h.length_eq]
  exact List.forall₂_take _ h

theorem getLast?_of_forall₂ (hitem : items.getLast? = some item) :
    ∃ item', items'.getLast? = some item' ∧ R item item' := by
  rw [List.getLast?_eq_getElem?] at hitem ⊢
  rw [h.length_eq] at hitem
  exact forall₂_getElem? h hitem

end

theorem exists_of_forall₂_append {first second : List α}
    (h : List.Forall₂ R (first ++ second) items') :
    ∃ left right, List.Forall₂ R first left ∧ List.Forall₂ R second right ∧
      items' = left ++ right := by
  refine ⟨items'.take first.length, items'.drop first.length, ?_, ?_,
    (List.take_append_drop _ _).symm⟩
  · exact (List.forall₂_take_append items' first second h.flip).flip
  · exact (List.forall₂_drop_append items' first second h.flip).flip

theorem exists_forall₂ (h : ∀ item ∈ items, ∃ item', R item item') :
    ∃ items', List.Forall₂ R items items' := by
  induction items with
  | nil => exact ⟨[], .nil⟩
  | cons item items ih =>
    rw [List.forall_mem_cons] at h
    obtain ⟨item', hitem'⟩ := h.1
    obtain ⟨items', hitems'⟩ := ih h.2
    exact ⟨item' :: items', .cons hitem' hitems'⟩

/-- A loop that computes a list succeeds when it succeeds for every element. -/
theorem mapM_eq_some_iff :
    items.mapM f = some items' ↔
      List.Forall₂ (fun item item' => f item = some item') items items' := by
  induction items generalizing items' with
  | nil =>
    rw [List.mapM_nil, List.forall₂_nil_left_iff]
    exact Option.some_inj.trans eq_comm
  | cons item items ih =>
    rw [List.mapM_cons, Option.bind_eq_bind, Option.bind_eq_some_iff, List.forall₂_cons_left_iff]
    constructor
    · rintro ⟨first, hfirst, h⟩
      obtain ⟨others, hothers, h⟩ := Option.bind_eq_some_iff.mp h
      cases h
      exact ⟨first, others, hfirst, ih.mp hothers, rfl⟩
    · rintro ⟨first, others, hfirst, hothers, rfl⟩
      refine ⟨first, hfirst, ?_⟩
      rw [Option.bind_eq_bind, ih.mpr hothers]
      rfl

theorem mapM_eq_map {g : α → β} (h : ∀ item ∈ items, f item = some (g item)) :
    items.mapM f = some (items.map g) := by
  rw [mapM_eq_some_iff, List.forall₂_map_right_iff, List.forall₂_same]
  exact h

theorem exists_mapM_eq_some (h : ∀ item ∈ items, ∃ item', f item = some item') :
    ∃ items', items.mapM f = some items' := by
  obtain ⟨items', hitems⟩ := exists_forall₂ h
  exact ⟨items', mapM_eq_some_iff.mpr hitems⟩

theorem mem_of_mapM_eq_some (h : items.mapM f = some items') {item' : β} :
    item' ∈ items' ↔ ∃ item ∈ items, f item = some item' := by
  have hall := mapM_eq_some_iff.mp h
  refine ⟨exists_of_forall₂_mem_right hall, ?_⟩
  rintro ⟨item, hitem, hf⟩
  obtain ⟨other, hother, hf'⟩ := exists_of_forall₂_mem hall hitem
  rwa [Option.some.inj (hf.symm.trans hf')]

/-- The same for loops that may end with an error. -/
theorem mapM_eq_ok_iff {ε : Type} {γ : Type u} {f : γ → Except ε β} {items : List γ} :
    items.mapM f = .ok items' ↔
      List.Forall₂ (fun item item' => f item = .ok item') items items' := by
  induction items generalizing items' with
  | nil =>
    rw [List.mapM_nil, List.forall₂_nil_left_iff]
    exact ⟨fun h => (Except.ok.inj h).symm, fun h => congrArg Except.ok h.symm⟩
  | cons item items ih =>
    rw [List.mapM_cons, List.forall₂_cons_left_iff]
    cases f item with
    | error stop =>
      refine iff_of_false (fun h => nomatch h) ?_
      rintro ⟨first, -, hok, -⟩
      nomatch hok
    | ok first =>
      cases hothers : items.mapM f with
      | error stop =>
        refine iff_of_false (fun h => nomatch h) ?_
        rintro ⟨-, others, -, hrest, -⟩
        rw [← ih, hothers] at hrest
        nomatch hrest
      | ok others =>
        constructor
        · intro h
          exact ⟨first, others, rfl, ih.mp hothers, (Except.ok.inj h).symm⟩
        · rintro ⟨first', others', hok, hrest, rfl⟩
          rw [← ih, hothers] at hrest
          cases hok
          cases hrest
          rfl

theorem exists_mapM_eq_ok {ε : Type} {γ : Type u} {f : γ → Except ε β} {items : List γ}
    (h : ∀ item ∈ items, ∃ item', f item = .ok item') :
    ∃ items', items.mapM f = .ok items' := by
  obtain ⟨items', hitems⟩ := exists_forall₂ h
  exact ⟨items', mapM_eq_ok_iff.mpr hitems⟩

end Prusti.Lib

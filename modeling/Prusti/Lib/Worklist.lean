/-
A walk over a graph with a stack of vertices to expand and a growing list of marked
vertices.  Some vertices are marked when they are met, but not expanded.
-/
import Mathlib.Data.List.Basic
import Mathlib.Logic.Relation

namespace Prusti.Lib

universe u

variable {V : Type u} [DecidableEq V] (next : V → List V) (stop : V → Bool)

/-- Mark a vertex unless it is marked already, and put it on the stack if it is to be
expanded.  The state is the stack, listed from its top, and the marked vertices. -/
def visitMark (state : List V × List V) (v : V) : List V × List V :=
  if v ∈ state.2 then state
  else (if stop v then state.1 else v :: state.1, state.2 ++ [v])

/-- The expanded vertices, in this order, and the vertices that are marked in the end. -/
def walk : Nat → List V → List V → Option (List V × List V)
  | _, [], marked => some ([], marked)
  | 0, _ :: _, _ => none
  | fuel + 1, current :: stack, marked =>
    let state := (next current).foldl (visitMark stop) (stack, marked)
    (walk fuel state.1 state.2).map fun result => (current :: result.1, result.2)

/-- A step to a vertex that gets expanded. -/
def FreshStep (marked : List V) (u v : V) : Prop := v ∈ next u ∧ v ∉ marked ∧ stop v = false

variable {next stop} {fuel : Nat} {stack marked left marked' vs : List V} {v : V}

theorem mem_marked_foldl_visitMark :
    v ∈ (vs.foldl (visitMark stop) (stack, marked)).2 ↔ v ∈ marked ∨ v ∈ vs := by
  induction vs generalizing stack marked with
  | nil => simp
  | cons w vs ih =>
    rw [List.foldl_cons, visitMark]
    split
    · next hw =>
        rw [ih, List.mem_cons]
        constructor
        · rintro (h | h)
          · exact .inl h
          · exact .inr (.inr h)
        · rintro (h | rfl | h)
          · exact .inl h
          · exact .inl hw
          · exact .inr h
    · rw [ih, List.mem_append, List.mem_singleton, List.mem_cons, or_assoc]

theorem mem_stack_foldl_visitMark :
    v ∈ (vs.foldl (visitMark stop) (stack, marked)).1 ↔
      v ∈ stack ∨ (v ∈ vs ∧ v ∉ marked ∧ stop v = false) := by
  induction vs generalizing stack marked with
  | nil => simp
  | cons w vs ih =>
    rw [List.foldl_cons, visitMark]
    split
    · next hw =>
        rw [ih]
        refine or_congr_right ⟨fun h => ⟨List.mem_cons_of_mem _ h.1, h.2⟩, ?_⟩
        rintro ⟨hv, hnot, hstop⟩
        rcases List.mem_cons.mp hv with rfl | hv
        · exact absurd hw hnot
        · exact ⟨hv, hnot, hstop⟩
    · next hw =>
        rw [ih, List.mem_append, List.mem_singleton]
        have hstack : v ∈ (if stop w = true then stack else w :: stack) ↔
            v ∈ stack ∨ (v = w ∧ stop v = false) := by
          by_cases hstop : stop w = true
          · rw [if_pos hstop]
            refine ⟨.inl, ?_⟩
            rintro (h | ⟨rfl, hfalse⟩)
            · exact h
            · rw [hstop] at hfalse
              cases hfalse
          · rw [if_neg hstop, List.mem_cons]
            rw [Bool.not_eq_true] at hstop
            constructor
            · rintro (rfl | h)
              · exact .inr ⟨rfl, hstop⟩
              · exact .inl h
            · rintro (h | ⟨rfl, -⟩)
              · exact .inr h
              · exact .inl rfl
        rw [hstack, List.mem_cons]
        by_cases hvw : v = w
        · subst hvw
          simp [hw]
        · simp [hvw]

/-- What a walk does: the stack is expanded, what is met gets marked, and what gets marked
is expanded unless the walk stops there. -/
theorem walk_spec (h : walk next stop fuel stack marked = some (left, marked')) :
    (∀ v ∈ stack, v ∈ left) ∧
      (∀ v, v ∈ marked' ↔ v ∈ marked ∨ ∃ u ∈ left, v ∈ next u) ∧
      (∀ v ∈ marked', v ∈ marked ∨ stop v = true ∨ v ∈ left) ∧
      ∀ v ∈ left, ∃ u ∈ stack, Relation.ReflTransGen (FreshStep next stop marked) u v := by
  induction fuel generalizing stack marked left with
  | zero =>
    cases stack with
    | nil =>
      cases h
      exact ⟨by simp, by simp, fun v hv => .inl hv, by simp⟩
    | cons => cases h
  | succ fuel ih =>
    cases stack with
    | nil =>
      cases h
      exact ⟨by simp, by simp, fun v hv => .inl hv, by simp⟩
    | cons current stack =>
      simp only [walk, Option.map_eq_some_iff] at h
      obtain ⟨⟨left', marked''⟩, hwalk, heq⟩ := h
      cases heq
      obtain ⟨hstack, hmarked, hleft, hreach⟩ := ih hwalk
      simp only [mem_marked_foldl_visitMark] at hmarked hleft
      refine ⟨?_, ?_, ?_, ?_⟩
      · intro v hv
        rcases List.mem_cons.mp hv with rfl | hv
        · exact List.mem_cons_self
        · exact List.mem_cons_of_mem _ (hstack v (mem_stack_foldl_visitMark.mpr (.inl hv)))
      · intro v
        rw [hmarked, or_assoc, List.exists_mem_cons_iff]
      · intro v hv
        rcases hleft v hv with (hold | hnew) | hstop | hmem
        · exact .inl hold
        · by_cases hold : v ∈ marked
          · exact .inl hold
          cases hstop : stop v with
          | true => exact .inr (.inl rfl)
          | false =>
            exact .inr (.inr (List.mem_cons_of_mem _ (hstack v
              (mem_stack_foldl_visitMark.mpr (.inr ⟨hnew, hold, hstop⟩)))))
        · exact .inr (.inl hstop)
        · exact .inr (.inr (List.mem_cons_of_mem _ hmem))
      · intro v hv
        rcases List.mem_cons.mp hv with rfl | hv
        · exact ⟨v, List.mem_cons_self, .refl⟩
        · obtain ⟨u, hu, hpath⟩ := hreach v hv
          -- steps that are fresh now were fresh before
          have hpath' : Relation.ReflTransGen (FreshStep next stop marked) u v := by
            refine Relation.ReflTransGen.mono ?_ _ _ hpath
            intro a b hab
            exact ⟨hab.1, fun hb => hab.2.1 (mem_marked_foldl_visitMark.mpr (.inl hb)), hab.2.2⟩
          rcases mem_stack_foldl_visitMark.mp hu with hu | hfresh
          · exact ⟨u, List.mem_cons_of_mem _ hu, hpath'⟩
          · exact ⟨current, List.mem_cons_self, .head hfresh hpath'⟩

/-- The expanded vertices are those that are reached over fresh steps. -/
theorem mem_left_iff (h : walk next stop fuel stack marked = some (left, marked')) :
    v ∈ left ↔ ∃ u ∈ stack, Relation.ReflTransGen (FreshStep next stop marked) u v := by
  obtain ⟨hstack, hmarked, hleft, hreach⟩ := walk_spec h
  refine ⟨hreach v, ?_⟩
  rintro ⟨u, hu, hpath⟩
  induction hpath with
  | refl => exact hstack u hu
  | @tail a b _ hstep ih =>
    rcases hleft b ((hmarked b).mpr (.inr ⟨a, ih, hstep.1⟩)) with hold | hstop | hmem
    · exact absurd hold hstep.2.1
    · rw [hstep.2.2] at hstop
      cases hstop
    · exact hmem

/-- The vertices that are left to mark. -/
def unmarked (bound marked : List V) : List V := bound.filter (· ∉ marked)

theorem length_unmarked_append {bound : List V} (hbound : v ∈ bound) (hv : v ∉ marked) :
    (unmarked bound (marked ++ [v])).length + 1 ≤ (unmarked bound marked).length := by
  have hlt : (unmarked bound (marked ++ [v])).length < (unmarked bound marked).length := by
    have hfilter : unmarked bound (marked ++ [v]) = (unmarked bound marked).filter (· ≠ v) := by
      rw [unmarked, unmarked, List.filter_filter]
      refine List.filter_congr fun w _ => ?_
      simp [not_or, and_comm]
    rw [hfilter]
    apply List.length_filter_lt_length_iff_exists.mpr
    exact ⟨v, List.mem_filter.mpr ⟨hbound, decide_eq_true hv⟩, by simp⟩
  exact hlt

/-- Every vertex that gets on the stack is marked on the way. -/
theorem length_foldl_visitMark {bound : List V} (hvs : vs ⊆ bound) :
    (vs.foldl (visitMark stop) (stack, marked)).1.length +
        (unmarked bound (vs.foldl (visitMark stop) (stack, marked)).2).length ≤
      stack.length + (unmarked bound marked).length := by
  induction vs generalizing stack marked with
  | nil => exact Nat.le_refl _
  | cons w vs ih =>
    have hrest : vs ⊆ bound := fun _ h => hvs (List.mem_cons_of_mem _ h)
    rw [List.foldl_cons, visitMark]
    split
    · exact ih hrest
    · next hw =>
        refine Nat.le_trans (ih hrest) ?_
        have hless : (unmarked bound (marked ++ [w])).length + 1 ≤ (unmarked bound marked).length :=
          length_unmarked_append (hvs List.mem_cons_self) hw
        dsimp only
        have hstack : (if stop w = true then stack else w :: stack).length ≤ stack.length + 1 := by
          split <;> simp
        omega

/-- A walk ends: every vertex is expanded once at most. -/
theorem exists_walk {bound : List V} (hnext : ∀ v, next v ⊆ bound)
    (hfuel : stack.length + (unmarked bound marked).length ≤ fuel) :
    ∃ result, walk next stop fuel stack marked = some result := by
  induction fuel generalizing stack marked with
  | zero =>
    have hempty : stack = [] := List.length_eq_zero_iff.mp (by omega)
    subst hempty
    exact ⟨([], marked), by rw [walk]⟩
  | succ fuel ih =>
    cases stack with
    | nil => exact ⟨([], marked), by rw [walk]⟩
    | cons current stack =>
      rw [List.length_cons] at hfuel
      have hless := @length_foldl_visitMark V _ stop stack marked _ bound (hnext current)
      obtain ⟨result, hresult⟩ := @ih ((next current).foldl (visitMark stop) (stack, marked)).1
        ((next current).foldl (visitMark stop) (stack, marked)).2 (by omega)
      exact ⟨(current :: result.1, result.2), by simp only [walk, hresult, Option.map_some]⟩

end Prusti.Lib

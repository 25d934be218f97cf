/-
Breadth-first exploration of a graph that is given by its successor lists: a queue of
vertices to expand and the list of the vertices that were found.
-/
import Prusti.Lib.Dfs

namespace Prusti.Lib

universe u

variable {V : Type u} [DecidableEq V] (next : V → List V)

/-- Enqueue a vertex that was not found before.  The state is the queue and the vertices
that were found. -/
def findVertex (state : List V × List V) (v : V) : List V × List V :=
  if v ∈ state.2 then state else (state.1 ++ [v], state.2 ++ [v])

/-- The vertices that are found, in this order. -/
def bfs : Nat → List V → List V → Option (List V)
  | _, [], found => some found
  | 0, _ :: _, _ => none
  | fuel + 1, current :: queue, found =>
    let state := (next current).foldl findVertex (queue, found)
    bfs fuel state.1 state.2

/-- The state of the exploration: the vertices that were found are those that were
expanded and those in the queue. -/
structure Exploring (root : V) (bound expanded queue found : List V) : Prop where
  found_eq : found = expanded ++ queue
  nodup : found.Nodup
  subset : found ⊆ bound
  root_mem : root ∈ found
  reaches : ∀ v ∈ found, Reaches next root v
  closed : ∀ u ∈ expanded, next u ⊆ found

variable {next} {root : V} {bound expanded queue found : List V}

variable {vs : List V} {state : List V × List V}

theorem mem_foldl_findVertex {v : V} :
    v ∈ (vs.foldl findVertex state).2 ↔ v ∈ state.2 ∨ v ∈ vs := by
  induction vs generalizing state with
  | nil => simp
  | cons w vs ih =>
    rw [List.foldl_cons, ih, findVertex, List.mem_cons]
    split
    · next hw =>
        constructor
        · rintro (h | h)
          · exact .inl h
          · exact .inr (.inr h)
        · rintro (h | rfl | h)
          · exact .inl h
          · exact .inl hw
          · exact .inr h
    · rw [List.mem_append, List.mem_singleton, or_assoc]

theorem mem_queue_foldl_findVertex {v : V} (h : v ∈ (vs.foldl findVertex state).1) :
    v ∈ state.1 ∨ v ∈ vs := by
  induction vs generalizing state with
  | nil => exact .inl h
  | cons w vs ih =>
    rw [List.foldl_cons] at h
    rcases ih h with h | h
    · rw [findVertex] at h
      split at h
      · exact .inl h
      · rcases List.mem_append.mp h with h | h
        · exact .inl h
        · exact .inr (List.mem_cons.mpr (.inl (List.mem_singleton.mp h)))
    · exact .inr (List.mem_cons_of_mem w h)

theorem foldl_findVertex_eq (h : state.2 = expanded ++ state.1) :
    (vs.foldl findVertex state).2 = expanded ++ (vs.foldl findVertex state).1 := by
  induction vs generalizing state with
  | nil => exact h
  | cons w vs ih =>
    rw [List.foldl_cons]
    refine ih ?_
    rw [findVertex]
    split
    · exact h
    · rw [h, List.append_assoc]

theorem nodup_foldl_findVertex (h : state.2.Nodup) : (vs.foldl findVertex state).2.Nodup := by
  induction vs generalizing state with
  | nil => exact h
  | cons w vs ih =>
    rw [List.foldl_cons]
    refine ih ?_
    rw [findVertex]
    split
    · exact h
    · next hw =>
        show (state.2 ++ [w]).Nodup
        rw [← List.concat_eq_append]
        exact h.concat hw

/-- Expand the first vertex of the queue. -/
theorem Exploring.expand {current : V}
    (h : Exploring next root bound expanded (current :: queue) found)
    (hbound : ∀ v ∈ bound, next v ⊆ bound) :
    Exploring next root bound (expanded ++ [current])
      ((next current).foldl findVertex (queue, found)).1
      ((next current).foldl findVertex (queue, found)).2 := by
  have hcurrent : current ∈ found := by
    rw [h.found_eq]
    exact List.mem_append_right _ List.mem_cons_self
  refine ⟨?_, nodup_foldl_findVertex h.nodup, ?_, ?_, ?_, ?_⟩
  · refine foldl_findVertex_eq ?_
    rw [h.found_eq, List.append_assoc, List.singleton_append]
  · intro v hv
    rcases mem_foldl_findVertex.mp hv with hv | hv
    · exact h.subset hv
    · exact hbound current (h.subset hcurrent) hv
  · exact mem_foldl_findVertex.mpr (.inl h.root_mem)
  · intro v hv
    rcases mem_foldl_findVertex.mp hv with hv | hv
    · exact h.reaches v hv
    · exact (h.reaches current hcurrent).tail hv
  · intro u hu v hv
    rcases List.mem_append.mp hu with hu | hu
    · exact mem_foldl_findVertex.mpr (.inl (h.closed u hu hv))
    · rw [List.mem_singleton.mp hu] at hv
      exact mem_foldl_findVertex.mpr (.inr hv)

omit [DecidableEq V] in
/-- An exploration with an empty queue has found what can be reached. -/
theorem Exploring.mem_iff (h : Exploring next root bound expanded [] found) (v : V) :
    v ∈ found ↔ Reaches next root v := by
  refine ⟨h.reaches v, fun hreach => ?_⟩
  induction hreach with
  | refl => exact h.root_mem
  | tail _ hedge ih =>
    have hexpanded : found = expanded := by rw [h.found_eq, List.append_nil]
    exact h.closed _ (hexpanded ▸ ih) hedge

/-- The exploration ends, because every vertex is expanded once. -/
theorem Exploring.exists_bfs {fuel : Nat} (h : Exploring next root bound expanded queue found)
    (hbound : ∀ v ∈ bound, next v ⊆ bound) (hfuel : bound.length ≤ fuel + expanded.length) :
    ∃ found', bfs next fuel queue found = some found' ∧ found'.Nodup ∧
      ∀ v, v ∈ found' ↔ Reaches next root v := by
  induction fuel generalizing expanded queue found with
  | zero =>
    cases queue with
    | nil => exact ⟨found, rfl, h.nodup, h.mem_iff⟩
    | cons current queue =>
      have hlength := (h.nodup.subperm h.subset).length_le
      rw [h.found_eq, List.length_append, List.length_cons] at hlength
      omega
  | succ fuel ih =>
    cases queue with
    | nil => exact ⟨found, rfl, h.nodup, h.mem_iff⟩
    | cons current queue =>
      refine ih (h.expand hbound) ?_
      rw [List.length_append, List.length_singleton]
      omega

theorem exists_bfs (hroot : root ∈ bound) (hbound : ∀ v ∈ bound, next v ⊆ bound) :
    ∃ found, bfs next bound.length [root] [root] = some found ∧ found.Nodup ∧
      ∀ v, v ∈ found ↔ Reaches next root v := by
  have hstart : Exploring next root bound [] [root] [root] := by
    refine ⟨rfl, List.nodup_singleton root, by simpa using hroot,
      List.mem_singleton_self root, ?_, by simp⟩
    intro v hv
    rw [List.mem_singleton.mp hv]
    exact .refl
  exact hstart.exists_bfs hbound (Nat.le_add_right _ _)

end Prusti.Lib

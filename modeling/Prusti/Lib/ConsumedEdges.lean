/-
The closure of a set under the edges of a graph, computed by rounds that remove the edges
they follow.
-/
import Prusti.Lib.HashMap

namespace Prusti.Lib

open Relation

variable {V : Type} [BEq V] [LawfulBEq V]

/-- The second vertex is one of the targets that are recorded for the first one. -/
def MapEdge (edges : HashMap V (HashSet V)) (u v : V) : Prop :=
  ∃ targets, edges.get? u = some targets ∧ targets.contains v = true

/-- Remove the edges of a vertex, and queue their targets. -/
def takeTargets (state : HashMap V (HashSet V) × List (HashSet V)) (v : V) :
    HashMap V (HashSet V) × List (HashSet V) :=
  match state.1.get? v with
  | some targets => (state.1.erase v, state.2 ++ [targets])
  | none => state

/-- Follow the edges of the vertices that were reached, until there are none left. -/
def consumeEdges : IterOrder → Nat → HashMap V (HashSet V) → HashSet V →
    Option (HashMap V (HashSet V) × HashSet V)
  | _, 0, _, _ => none
  | order, fuel + 1, edges, reached =>
    let state := (order.iter 0 reached.keys).foldl takeTargets (edges, [])
    let reached := state.2.foldl HashSet.union reached
    if state.2.isEmpty then some (state.1, reached)
    else consumeEdges (order.call 1) fuel state.1 reached

variable {order : IterOrder} {fuel : Nat} {edges edges' : HashMap V (HashSet V)}
  {reached reached' : HashSet V} {queue : List (HashSet V)} {u v : V}

theorem contains_foldl_union_iff :
    (queue.foldl HashSet.union reached).contains v = true ↔
      reached.contains v = true ∨ ∃ targets ∈ queue, targets.contains v = true := by
  induction queue generalizing reached with
  | nil => simp
  | cons targets queue ih =>
    rw [List.foldl_cons, ih, HashSet.contains_union_iff, List.exists_mem_cons_iff, or_assoc]

omit [LawfulBEq V] in
theorem takeTargets_of_none (h : edges.get? v = none) :
    takeTargets (edges, queue) v = (edges, queue) := by
  rw [takeTargets, h]

omit [LawfulBEq V] in
theorem takeTargets_of_some {targets : HashSet V} (h : edges.get? v = some targets) :
    takeTargets (edges, queue) v = (edges.erase v, queue ++ [targets]) := by
  rw [takeTargets, h]

/-- What a round leaves of the edges. -/
theorem get?_foldl_takeTargets {vs : List V} {targets : HashSet V} :
    (vs.foldl takeTargets (edges, queue)).1.get? v = some targets ↔
      edges.get? v = some targets ∧ v ∉ vs := by
  induction vs generalizing edges queue with
  | nil => simp
  | cons first vs ih =>
    rw [List.foldl_cons, List.mem_cons, not_or]
    cases hfirst : edges.get? first with
    | none =>
      rw [takeTargets_of_none hfirst, ih]
      refine and_congr_right fun hv => (and_iff_right ?_).symm
      rintro rfl
      rw [hfirst] at hv
      cases hv
    | some found =>
      rw [takeTargets_of_some hfirst, ih, HashMap.get?_erase]
      by_cases hv : first = v
      · simp [hv]
      · simp [hv, Ne.symm hv]

/-- What a round queues. -/
theorem mem_foldl_takeTargets_iff {vs : List V} {targets : HashSet V} :
    targets ∈ (vs.foldl takeTargets (edges, queue)).2 ↔
      targets ∈ queue ∨ ∃ v ∈ vs, edges.get? v = some targets := by
  induction vs generalizing edges queue with
  | nil => simp
  | cons first vs ih =>
    rw [List.foldl_cons, List.exists_mem_cons_iff]
    cases hfirst : edges.get? first with
    | none =>
      rw [takeTargets_of_none hfirst, ih]
      simp
    | some found =>
      rw [takeTargets_of_some hfirst, ih, List.mem_append, List.mem_singleton, or_assoc,
        Option.some_inj]
      refine or_congr_right ⟨?_, ?_⟩
      · rintro (rfl | ⟨v, hv, hget⟩)
        · exact .inl rfl
        · rw [HashMap.get?_erase] at hget
          split at hget
          · cases hget
          · exact .inr ⟨v, hv, hget⟩
      · rintro (rfl | ⟨v, hv, hget⟩)
        · exact .inl rfl
        · by_cases heq : first = v
          · subst heq
            rw [hfirst] at hget
            exact .inl (Option.some.inj hget).symm
          · refine .inr ⟨v, hv, ?_⟩
            rw [HashMap.get?_erase, if_neg (by simpa using heq)]
            exact hget

/-- Every queued set of targets is one entry less. -/
theorem length_foldl_takeTargets (edges : HashMap V (HashSet V)) (queue : List (HashSet V))
    (vs : List V) :
    (vs.foldl takeTargets (edges, queue)).1.entries.length +
        (vs.foldl takeTargets (edges, queue)).2.length ≤
      edges.entries.length + queue.length := by
  induction vs generalizing edges queue with
  | nil => exact Nat.le_refl _
  | cons first vs ih =>
    rw [List.foldl_cons]
    cases hfirst : edges.get? first with
    | none =>
      rw [takeTargets_of_none hfirst]
      exact ih edges queue
    | some found =>
      rw [takeTargets_of_some hfirst]
      refine Nat.le_trans (ih _ _) ?_
      have hless := HashMap.length_erase_lt ((HashMap.contains_iff edges first).mpr ⟨_, hfirst⟩)
      rw [List.length_append, List.length_singleton]
      omega

section Round

variable {vs : List V}

/-- The edges that a round leaves lead from what it adds to the same vertices. -/
theorem reaches_round_iff (hvs : ∀ v, v ∈ vs ↔ reached.contains v = true) :
    (∃ u, reached.contains u = true ∧ ReflTransGen (MapEdge edges) u v) ↔
      ∃ u, ((vs.foldl takeTargets (edges, [])).2.foldl HashSet.union reached).contains u = true ∧
        ReflTransGen (MapEdge (vs.foldl takeTargets (edges, [])).1) u v := by
  simp only [contains_foldl_union_iff, mem_foldl_takeTargets_iff, List.not_mem_nil, false_or]
  constructor
  · rintro ⟨u, hu, hpath⟩
    induction hpath with
    | refl => exact ⟨u, .inl hu, .refl⟩
    | @tail v w _ hstep ih =>
      obtain ⟨targets, hget, hw⟩ := hstep
      by_cases hv : reached.contains v = true
      · exact ⟨w, .inr ⟨targets, ⟨v, (hvs v).mpr hv, hget⟩, hw⟩, .refl⟩
      · obtain ⟨start, hstart, hpath⟩ := ih
        refine ⟨start, hstart, hpath.tail ⟨targets, ?_, hw⟩⟩
        rw [get?_foldl_takeTargets]
        exact ⟨hget, fun hmem => hv ((hvs v).mp hmem)⟩
  · rintro ⟨u, hu, hpath⟩
    have hsub : ReflTransGen (MapEdge edges) u v := by
      refine ReflTransGen.mono ?_ _ _ hpath
      rintro v w ⟨targets, hget, hw⟩
      rw [get?_foldl_takeTargets] at hget
      exact ⟨targets, hget.1, hw⟩
    rcases hu with hu | ⟨targets, ⟨start, hstart, hget⟩, hu⟩
    · exact ⟨u, hu, hsub⟩
    · exact ⟨start, (hvs start).mp hstart, .head ⟨targets, hget, hu⟩ hsub⟩

end Round

/-- Exactly what can be reached is reached. -/
theorem contains_consumeEdges_iff
    (h : consumeEdges order fuel edges reached = some (edges', reached')) (v : V) :
    reached'.contains v = true ↔
      ∃ u, reached.contains u = true ∧ ReflTransGen (MapEdge edges) u v := by
  induction fuel generalizing order edges reached with
  | zero => cases h
  | succ fuel ih =>
    have hvs : ∀ v, v ∈ order.iter 0 reached.keys ↔ reached.contains v = true := fun v => by
      rw [IterOrder.mem_iter, HashMap.contains_iff_mem_keys]
    rw [reaches_round_iff hvs]
    rw [consumeEdges] at h
    split at h
    · next hempty =>
        cases h
        -- nothing was queued, so no edge leads away from what was reached
        refine ⟨fun hv => ⟨v, hv, .refl⟩, ?_⟩
        rintro ⟨u, hu, hpath⟩
        rcases ReflTransGen.cases_head hpath with rfl | ⟨w, ⟨targets, hget, -⟩, -⟩
        · exact hu
        · rw [List.isEmpty_iff] at hempty
          rw [get?_foldl_takeTargets] at hget
          rw [hempty] at hu
          exact absurd ((hvs u).mpr hu) hget.2
    · exact ih h

/-- The rounds end: each of them but the last one removes edges. -/
theorem exists_consumeEdges (order : IterOrder) (edges : HashMap V (HashSet V))
    (reached : HashSet V) (hfuel : edges.entries.length < fuel) :
    ∃ result, consumeEdges order fuel edges reached = some result := by
  induction fuel generalizing order edges reached with
  | zero => omega
  | succ fuel ih =>
    rw [consumeEdges]
    split
    · exact ⟨_, rfl⟩
    · next hqueued =>
        have hlength := length_foldl_takeTargets edges [] (order.iter 0 reached.keys)
        have hpos : 0 < ((order.iter 0 reached.keys).foldl takeTargets (edges, [])).2.length := by
          rw [List.length_pos_iff]
          exact fun hnil => hqueued (List.isEmpty_iff.mpr hnil)
        rw [List.length_nil, Nat.add_zero] at hlength
        exact ih _ _ _ (by omega)

end Prusti.Lib

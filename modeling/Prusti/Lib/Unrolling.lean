/-
A graph unrolled from a vertex: all its paths, walked one after the other without a
record of what has been seen.
-/
import Mathlib.Data.Set.Card
import Prusti.Lib.Dfs
import Prusti.Lib.HashMap
import Prusti.Lib.Lists

namespace Prusti.Lib

universe u v

variable {V : Type u} (next : V → List V)

/-- The vertices in the order in which the paths lead to them, with repetitions. -/
def unroll : Nat → V → Option (List V)
  | 0, _ => none
  | fuel + 1, v => ((next v).mapM (unroll fuel)).map fun parts => v :: parts.flatten

/-- The vertices that wait on a stack, listed from its top, are taken one after the
other.  Each is processed and gives way to the vertices next to it. -/
def drain {ε : Type v} {σ : Type v} (process : σ → V → Except (Stop ε) σ) :
    Nat → List V → σ → Except (Stop ε) σ
  | _, [], state => .ok state
  | 0, _ :: _, _ => .error .outOfFuel
  | fuel + 1, v :: stack, state => do
    let state ← process state v
    drain process fuel (next v ++ stack) state

variable {next} {fuel : Nat} {u v w : V} {trace : List V}

variable {parts : List (List V)}

theorem unroll_succ_eq_some_iff :
    unroll next (fuel + 1) v = some trace ↔
      ∃ parts, (next v).mapM (unroll next fuel) = some parts ∧ trace = v :: parts.flatten := by
  rw [unroll, Option.map_eq_some_iff]
  exact exists_congr fun parts => and_congr_right fun _ => eq_comm

theorem exists_eq_cons_of_unroll (h : unroll next fuel v = some trace) :
    ∃ rest, trace = v :: rest := by
  cases fuel with
  | zero => cases h
  | succ fuel =>
    obtain ⟨parts, -, rfl⟩ := unroll_succ_eq_some_iff.mp h
    exact ⟨_, rfl⟩

/-- Every next vertex is unrolled, as one of the parts. -/
theorem exists_part (h : (next v).mapM (unroll next fuel) = some parts) (hw : w ∈ next v) :
    ∃ part ∈ parts, unroll next fuel w = some part :=
  exists_of_forall₂_mem (mapM_eq_some_iff.mp h) hw

theorem exists_next_of_part {part : List V} (h : (next v).mapM (unroll next fuel) = some parts)
    (hpart : part ∈ parts) :
    ∃ w ∈ next v, unroll next fuel w = some part :=
  exists_of_forall₂_mem_right (mapM_eq_some_iff.mp h) hpart

theorem unroll_mono {more : Nat} (hle : fuel ≤ more) (h : unroll next fuel v = some trace) :
    unroll next more v = some trace := by
  induction fuel generalizing v trace more with
  | zero => cases h
  | succ fuel ih =>
    cases more with
    | zero => omega
    | succ more =>
      obtain ⟨parts, hparts, rfl⟩ := unroll_succ_eq_some_iff.mp h
      refine unroll_succ_eq_some_iff.mpr ⟨parts, mapM_eq_some_iff.mpr ?_, rfl⟩
      exact (mapM_eq_some_iff.mp hparts).imp fun _ _ => ih (Nat.le_of_succ_le_succ hle)

/-- What is unrolled is what can be reached. -/
theorem mem_unroll_iff (h : unroll next fuel v = some trace) : u ∈ trace ↔ Reaches next v u := by
  induction fuel generalizing v trace with
  | zero => cases h
  | succ fuel ih =>
    obtain ⟨parts, hparts, rfl⟩ := unroll_succ_eq_some_iff.mp h
    rw [List.mem_cons, List.mem_flatten]
    constructor
    · rintro (rfl | ⟨part, hpart, hu⟩)
      · exact .refl
      · obtain ⟨w, hw, hunroll⟩ := exists_next_of_part hparts hpart
        exact .head hw ((ih hunroll).mp hu)
    · intro hreach
      rcases Relation.ReflTransGen.cases_head hreach with rfl | ⟨w, hw, hrest⟩
      · exact .inl rfl
      · obtain ⟨part, hpart, hunroll⟩ := exists_part hparts hw
        exact .inr ⟨part, hpart, (ih hunroll).mpr hrest⟩

/-- An element of a joined list stands in one of the parts, and what follows it there
follows it in the joined list. -/
theorem exists_part_of_flatten_eq {front back : List V} (h : parts.flatten = front ++ u :: back) :
    ∃ part ∈ parts, ∃ front' back', part = front' ++ u :: back' ∧ back' ⊆ back := by
  induction parts generalizing front with
  | nil => cases front <;> cases h
  | cons part parts ih =>
    rw [List.flatten_cons, List.append_eq_append_iff] at h
    rcases h with ⟨front', rfl, hrest⟩ | ⟨middle, rfl, hback⟩
    · obtain ⟨part', hpart', hsplit⟩ := ih hrest
      exact ⟨part', List.mem_cons_of_mem _ hpart', hsplit⟩
    · rcases List.cons_eq_append_iff.mp hback with ⟨rfl, hrest⟩ | ⟨middle', rfl, rfl⟩
      · obtain ⟨part', hpart', hsplit⟩ := @ih [] hrest
        exact ⟨part', List.mem_cons_of_mem _ hpart', hsplit⟩
      · exact ⟨_, List.mem_cons_self, front, middle', rfl, List.subset_append_left _ _⟩

/-- Whenever a vertex was walked to, the vertices next to it are walked to later. -/
theorem mem_of_unroll_eq_append {front back : List V}
    (h : unroll next fuel v = some (front ++ u :: back)) (hw : w ∈ next u) : w ∈ back := by
  induction fuel generalizing v front back with
  | zero => cases h
  | succ fuel ih =>
    obtain ⟨parts, hparts, htrace⟩ := unroll_succ_eq_some_iff.mp h
    cases front with
    | nil =>
      obtain ⟨rfl, rfl⟩ := List.cons.inj htrace
      obtain ⟨part, hpart, hunroll⟩ := exists_part hparts hw
      exact List.mem_flatten.mpr ⟨part, hpart, (mem_unroll_iff hunroll).mpr .refl⟩
    | cons first front =>
      obtain ⟨part, hpart, front', back', rfl, hsub⟩ :=
        exists_part_of_flatten_eq (List.cons.inj htrace).2.symm
      obtain ⟨_, _, hunroll⟩ := exists_next_of_part hparts hpart
      exact hsub (ih hunroll)

section Ends

open Relation

/-- The vertices behind a vertex. -/
private def behind (bound : Finset V) (next : V → List V) (v : V) : Set V :=
  { w | w ∈ bound ∧ TransGen (Edge next) v w }

/-- Without cycles, the unrolling ends. -/
theorem exists_unroll (bound : Finset V) (hbound : ∀ v, ∀ w ∈ next v, w ∈ bound)
    (hacyclic : AcyclicFrom next v) : ∃ fuel trace, unroll next fuel v = some trace := by
  induction hcard : (behind bound next v).ncard using Nat.strong_induction_on generalizing v with
  | h card ih =>
    subst hcard
    have hparts : ∀ ws ⊆ next v, ∃ fuel parts, ws.mapM (unroll next fuel) = some parts := by
      intro ws
      induction ws with
      | nil => exact fun _ => ⟨0, [], rfl⟩
      | cons w ws ihws =>
        intro hws
        obtain ⟨fuel, parts, hparts⟩ := ihws fun _ h => hws (List.mem_cons_of_mem _ h)
        have hw : w ∈ next v := hws List.mem_cons_self
        have hless : behind bound next w ⊂ behind bound next v := by
          refine ⟨fun x hx => ⟨hx.1, .head hw hx.2⟩, fun hsub => ?_⟩
          exact hacyclic w (.single hw) (hsub ⟨hbound v w hw, .single hw⟩).2
        obtain ⟨fuel', trace, htrace⟩ := ih _
          (Set.ncard_lt_ncard hless (bound.finite_toSet.subset fun _ hx => hx.1))
          (fun x hx => hacyclic x (.head hw hx)) rfl
        refine ⟨max fuel fuel', trace :: parts, mapM_eq_some_iff.mpr (.cons ?_ ?_)⟩
        · exact unroll_mono (le_max_right _ _) htrace
        · exact (mapM_eq_some_iff.mp hparts).imp fun _ _ => unroll_mono (le_max_left _ _)
    obtain ⟨fuel, parts, hparts⟩ := hparts (next v) (List.Subset.refl _)
    exact ⟨fuel + 1, _, unroll_succ_eq_some_iff.mpr ⟨parts, hparts, rfl⟩⟩

/-- Some fuel is enough for several vertices. -/
theorem exists_fuel_unroll {vs : List V} {p : V → Prop}
    (h : ∀ v ∈ vs, p v → ∃ fuel trace, unroll next fuel v = some trace) :
    ∃ fuel, ∀ more, fuel ≤ more → ∀ v ∈ vs, p v → ∃ trace, unroll next more v = some trace := by
  induction vs with
  | nil => exact ⟨0, fun _ _ => List.forall_mem_nil _⟩
  | cons first vs ih =>
    rw [List.forall_mem_cons] at h
    obtain ⟨fuel, hfuel⟩ := ih h.2
    by_cases hp : p first
    · obtain ⟨fuel', trace, htrace⟩ := h.1 hp
      refine ⟨max fuel fuel', fun more hle => List.forall_mem_cons.mpr ⟨fun _ => ?_, ?_⟩⟩
      · exact ⟨trace, unroll_mono ((le_max_right _ _).trans hle) htrace⟩
      · exact hfuel more ((le_max_left _ _).trans hle)
    · exact ⟨fuel, fun more hle => List.forall_mem_cons.mpr
        ⟨fun htrue => absurd htrue hp, hfuel more hle⟩⟩

/-- A cycle that a vertex reaches is reached by a vertex next to it. -/
theorem acyclicFrom_of_next (h : ∀ w ∈ next v, AcyclicFrom next w) : AcyclicFrom next v := by
  intro u hreach hcycle
  rcases ReflTransGen.cases_head hreach with rfl | ⟨w, hw, hrest⟩
  · obtain ⟨w, hw, hback⟩ := TransGen.head'_iff.mp hcycle
    exact h w hw w .refl (.tail' hback hw)
  · exact h w hw u hrest hcycle

/-- If the unrolling ends, there are no cycles. -/
theorem acyclicFrom_of_unroll (h : unroll next fuel v = some trace) : AcyclicFrom next v := by
  induction fuel generalizing v trace with
  | zero => cases h
  | succ fuel ih =>
    obtain ⟨parts, hparts, -⟩ := unroll_succ_eq_some_iff.mp h
    refine acyclicFrom_of_next fun w hw => ?_
    obtain ⟨part, -, hunroll⟩ := exists_part hparts hw
    exact ih hunroll

/-- What follows a cycle of a deterministic relation lies on it. -/
theorem transGen_self_of_deterministic {r : V → V → Prop}
    (hdet : ∀ {a b c : V}, r a b → r a c → b = c) (hcycle : TransGen r u u)
    (h : ReflTransGen r u v) : TransGen r v v := by
  induction h with
  | refl => exact hcycle
  | tail _ hstep ih =>
    obtain ⟨next, hnext, hback⟩ := TransGen.head'_iff.mp ih
    obtain rfl := hdet hstep hnext
    exact .tail' hback hstep

end Ends

section Search

variable {ε : Type v} {σ : Type u} {visit : σ → V → σ} {search : σ → V → Except (Stop ε) σ}
  {part : V → Option (List V)} {keep : V → Bool}

/-- Searching behind some vertices, where each search visits what its vertex unrolls to. -/
theorem foldlM_search {vs : List V} (hkeep : ∀ v ∈ vs, keep v = true → ∀ state, search state v =
      Stop.orOutOfFuel (part v) >>= fun trace => .ok (trace.foldl visit state))
    (hskip : ∀ v ∈ vs, keep v = false → ∀ state, search state v = .ok state) (state : σ) :
    vs.foldlM search state =
      Stop.orOutOfFuel ((vs.filter keep).mapM part) >>= fun parts =>
        .ok (parts.flatten.foldl visit state) := by
  induction vs generalizing state with
  | nil => rfl
  | cons v vs ih =>
    rw [List.forall_mem_cons] at hkeep hskip
    rw [List.foldlM_cons]
    cases hv : keep v with
    | false =>
      rw [hskip.1 hv, List.filter_cons_of_neg (by simp [hv])]
      exact ih hkeep.2 hskip.2 state
    | true =>
      rw [hkeep.1 hv, List.filter_cons_of_pos hv, List.mapM_cons]
      cases part v with
      | none => rfl
      | some trace =>
        change vs.foldlM search (trace.foldl visit state) = _
        rw [ih hkeep.2 hskip.2]
        cases (vs.filter keep).mapM part with
        | none => rfl
        | some parts =>
          change Except.ok _ = Except.ok _
          rw [List.flatten_cons, List.foldl_append]

end Search

section Drain

variable {ε σ : Type v} {process : σ → V → Except (Stop ε) σ} {state result : σ}

/-- Draining a vertex is processing what it unrolls to. -/
theorem drain_cons {stack : List V} (h : unroll next fuel v = some trace) (fuel' : Nat) :
    drain next process (trace.length + fuel') (v :: stack) state =
      trace.foldlM process state >>= drain next process fuel' stack := by
  induction fuel generalizing v trace stack state fuel' with
  | zero => cases h
  | succ fuel ih =>
    obtain ⟨parts, hparts, rfl⟩ := unroll_succ_eq_some_iff.mp h
    have hall : ∀ (ws : List V) (parts : List (List V)),
        List.Forall₂ (fun w part => unroll next fuel w = some part) ws parts →
        ∀ state : σ, drain next process (parts.flatten.length + fuel') (ws ++ stack) state =
          parts.flatten.foldlM process state >>= drain next process fuel' stack := by
      intro ws parts hrel
      induction hrel with
      | nil =>
        intro state
        rw [List.flatten_nil, List.length_nil, Nat.zero_add]
        rfl
      | cons hfirst _ ihrest =>
        intro state
        rw [List.flatten_cons, List.length_append, Nat.add_assoc, List.cons_append,
          ih hfirst, List.foldlM_append, bind_assoc]
        exact bind_congr ihrest
    rw [List.length_cons, Nat.add_right_comm, drain, List.foldlM_cons, bind_assoc]
    exact bind_congr (hall _ _ (mapM_eq_some_iff.mp hparts))

theorem drain_mono {stack : List V} {more : Nat} (hle : fuel ≤ more)
    (h : drain next process fuel stack state = .ok result) :
    drain next process more stack state = .ok result := by
  induction fuel generalizing stack state more with
  | zero =>
    cases stack with
    | nil =>
      cases h
      cases more <;> rfl
    | cons => cases h
  | succ fuel ih =>
    obtain ⟨more, rfl⟩ := Nat.exists_eq_add_of_le' (Nat.le_of_add_left_le hle)
    cases stack with
    | nil => exact h
    | cons first stack =>
      obtain ⟨state', hstate', hrest⟩ := exists_of_bind_eq_ok h
      exact (bind_eq_ok_iff _ _ _).mpr ⟨state', hstate', ih (Nat.le_of_succ_le_succ hle) hrest⟩

/-- If draining ends without an error, what was on the stack can be unrolled. -/
theorem exists_unroll_of_drain {stack : List V}
    (h : drain next process fuel stack state = .ok result) :
    ∀ v ∈ stack, ∃ trace, unroll next fuel v = some trace := by
  induction fuel generalizing stack state with
  | zero =>
    cases stack with
    | nil => exact List.forall_mem_nil _
    | cons => cases h
  | succ fuel ih =>
    cases stack with
    | nil => exact List.forall_mem_nil _
    | cons first stack =>
      obtain ⟨state', -, hrest⟩ := exists_of_bind_eq_ok h
      have hunroll := ih hrest
      intro v hv
      rcases List.mem_cons.mp hv with rfl | hv
      · obtain ⟨parts, hparts⟩ := exists_mapM_eq_some fun w hw =>
          hunroll w (List.mem_append_left stack hw)
        exact ⟨_, unroll_succ_eq_some_iff.mpr ⟨parts, hparts, rfl⟩⟩
      · obtain ⟨trace, htrace⟩ := hunroll v (List.mem_append_right _ hv)
        exact ⟨trace, unroll_mono (Nat.le_succ fuel) htrace⟩

end Drain

section Stores

variable {V S ε : Type} [BEq V] [LawfulBEq V] {next : V → List V}
  {process : HashMap V S → V → Except (Stop ε) (HashMap V S)} {fuel : Nat} {root v w : V}
  {trace : List V} {before heads : HashMap V S}

/-- Processing a vertex stores a value for it. -/
def Stores (process : HashMap V S → V → Except (Stop ε) (HashMap V S)) : Prop :=
  ∀ ⦃before : HashMap V S⦄ ⦃v after⦄, process before v = .ok after → ∃ s, after = before.insert v s

theorem Stores.contains_iff (hstores : Stores process)
    (h : trace.foldlM process before = .ok heads) :
    heads.contains w = true ↔ before.contains w = true ∨ w ∈ trace := by
  induction trace generalizing before with
  | nil =>
    cases h
    simp
  | cons v trace ih =>
    rw [List.foldlM_cons, bind_eq_ok_iff] at h
    obtain ⟨after, hafter, hrest⟩ := h
    obtain ⟨s, rfl⟩ := hstores hafter
    rw [ih hrest, HashMap.contains_insert_iff, List.mem_cons, or_assoc]

theorem Stores.get?_eq (hstores : Stores process)
    (h : trace.foldlM process before = .ok heads) (hw : w ∉ trace) :
    heads.get? w = before.get? w := by
  induction trace generalizing before with
  | nil =>
    cases h
    rfl
  | cons v trace ih =>
    rw [List.foldlM_cons, bind_eq_ok_iff] at h
    obtain ⟨after, hafter, hrest⟩ := h
    obtain ⟨s, rfl⟩ := hstores hafter
    rw [List.mem_cons, not_or] at hw
    rw [ih hrest hw.2, HashMap.get?_insert, if_neg]
    exact fun heq => hw.1 (beq_iff_eq.mp heq).symm

/-- The value that is kept for a vertex is the one that was computed last.  At that time the
vertices that lead to it in one step had got the values that are kept for them. -/
theorem Stores.last_visit (hstores : Stores process) (hunroll : unroll next fuel root = some trace)
    (h : trace.foldlM process HashMap.empty = .ok heads) (hv : v ∈ trace) :
    ∃ before s, process before v = .ok (before.insert v s) ∧ heads.get? v = some s ∧
      ∀ w, v ∈ next w ∨ w ∉ trace → before.get? w = heads.get? w := by
  obtain ⟨back, front, htrace, hback⟩ := List.eq_append_cons_of_mem (List.mem_reverse.mpr hv)
  obtain rfl : trace = front.reverse ++ v :: back.reverse := by
    rw [← trace.reverse_reverse, htrace, List.reverse_append, List.reverse_cons, List.append_assoc]
    rfl
  rw [List.foldlM_append, bind_eq_ok_iff] at h
  obtain ⟨before, -, h⟩ := h
  rw [List.foldlM_cons, bind_eq_ok_iff] at h
  obtain ⟨after, hafter, h⟩ := h
  obtain ⟨s, rfl⟩ := hstores hafter
  have hlast : v ∉ back.reverse := fun hmem => hback (List.mem_reverse.mp hmem)
  refine ⟨before, s, hafter, ?_, fun w hw => ?_⟩
  · rw [hstores.get?_eq h hlast, HashMap.get?_insert, if_pos (beq_self_eq_true v)]
  · have hw' : w ∉ v :: back.reverse := by
      rcases hw with hedge | hw
      · intro hmem
        rcases List.mem_cons.mp hmem with rfl | hmem
        · exact hlast (mem_of_unroll_eq_append hunroll hedge)
        · obtain ⟨front', back', heq⟩ := List.append_of_mem hmem
          rw [heq, ← List.cons_append, ← List.append_assoc] at hunroll
          refine hlast ?_
          rw [heq]
          exact List.mem_append_right _
            (List.mem_cons_of_mem _ (mem_of_unroll_eq_append hunroll hedge))
      · exact fun hmem => hw (List.mem_append_right _ hmem)
    rw [List.mem_cons, not_or] at hw'
    rw [hstores.get?_eq h hw'.2, HashMap.get?_insert, if_neg]
    exact fun heq => hw'.1 (beq_iff_eq.mp heq).symm

end Stores

end Prusti.Lib

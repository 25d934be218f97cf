/-
The forward analysis terminates on the definitely-initialized domain: over finitely many
places the domain is monotone and of finite height in the order of the leaf places.
-/
import Mathlib.Data.Set.Finite.Basic
import Prusti.Analysis.Convergence
import Prusti.Analysis.InitEffects

namespace Prusti.Analysis

open Prusti.Mir

universe u

variable {Ty : Type u} [DecidableEq Ty] {tcx : TyCtxt Ty} {body : Body Ty}

namespace DefinitelyInitializedState

theorem edgesDenote_le {left right : List (BasicBlock × DefInitPlaces Ty)}
    {edges edges' : List (BasicBlock × Set (Place Ty))}
    (hleft : EdgesDenote tcx body left edges) (hright : EdgesDenote tcx body right edges')
    (hle : List.Forall₂ (fun edge' edge => edge'.1 = edge.1 ∧ edge'.2 ⊆ edge.2) edges' edges) :
    List.Forall₂ (fun next next' => next.1 = next'.1 ∧
      leafPlaces tcx body next'.2 ⊆ leafPlaces tcx body next.2) left right := by
  induction hle generalizing left right with
  | nil =>
    cases hleft
    cases hright
    exact .nil
  | cons hfirst _ ih =>
    cases hleft with
    | cons hnext hleft =>
      cases hright with
      | cons hnext' hright =>
        refine .cons ⟨?_, ?_⟩ (ih hleft hright)
        · rw [hnext.1, hnext'.1, hfirst.1]
        · rw [hnext.2.2, hnext'.2.2]
          exact hfirst.2

end DefinitelyInitializedState

section Finite

/-- Among finitely many places there is a leaf below every place: the deepest one. -/
theorem bounded_of_finite (hfinite : {place | IsPlace tcx body place}.Finite) :
    (placeForest tcx body).Bounded := by
  classical
  intro place hplace
  obtain ⟨deepest, hdeepest, hmax⟩ := Finset.exists_max_image
    (hfinite.toFinset.filter (place ≤ ·)) (placeForest tcx body).depth
    ⟨place, Finset.mem_filter.mpr ⟨hfinite.mem_toFinset.mpr hplace, le_rfl⟩⟩
  obtain ⟨hmem, hle⟩ := Finset.mem_filter.mp hdeepest
  have hnode : IsPlace tcx body deepest := hfinite.mem_toFinset.mp hmem
  refine ⟨deepest, ⟨hnode, ?_⟩, hle⟩
  by_contra hne
  obtain ⟨child, hchild⟩ := Finset.nonempty_iff_ne_empty.mpr hne
  have hlt := (placeForest tcx body).lt_child hchild
  have hdepth := (placeForest tcx body).depth_lt hlt
  have hchildNode := (placeForest tcx body).node_child hnode hchild
  have hle' := hmax child (Finset.mem_filter.mpr
    ⟨hfinite.mem_toFinset.mpr hchildNode, hle.trans hlt.le⟩)
  omega

open Classical in
/-- The number of leaf places that a set does not denote. -/
noncomputable def missingLeaves (hfinite : {place | IsPlace tcx body place}.Finite)
    (places : DefInitPlaces Ty) : Nat :=
  (hfinite.toFinset.filter fun leaf =>
    IsLeafPlace tcx body leaf ∧ leaf ∉ leafPlaces tcx body places).card

theorem missingLeaves_le (hfinite : {place | IsPlace tcx body place}.Finite)
    (places : DefInitPlaces Ty) :
    missingLeaves hfinite places ≤ hfinite.toFinset.card := by
  classical
  exact Finset.card_filter_le _ _

theorem missingLeaves_lt (hfinite : {place | IsPlace tcx body place}.Finite)
    {left right : DefInitPlaces Ty} (hleft : CanonicalPlaces tcx body left)
    (hright : CanonicalPlaces tcx body right)
    (hle : leafPlaces tcx body right ⊆ leafPlaces tcx body left) (hne : left ≠ right) :
    missingLeaves hfinite left < missingLeaves hfinite right := by
  classical
  have hnot : ¬ leafPlaces tcx body left ⊆ leafPlaces tcx body right := fun hsubset =>
    hne (hleft.eq_of_leaves_eq hright (bounded_of_finite hfinite) (Set.Subset.antisymm hsubset hle))
  obtain ⟨leaf, hleaf, hmissing⟩ := Set.not_subset.mp hnot
  have hplace : leaf ∈ hfinite.toFinset := hfinite.mem_toFinset.mpr hleaf.1.1
  refine Finset.card_lt_card (Finset.ssubset_iff_of_subset ?_ |>.mpr ⟨leaf, ?_, ?_⟩)
  · intro other hother
    obtain ⟨hmem, hother, hout⟩ := Finset.mem_filter.mp hother
    exact Finset.mem_filter.mpr ⟨hmem, hother, fun hin => hout (hle hin)⟩
  · exact Finset.mem_filter.mpr ⟨hplace, hleaf.1, hmissing⟩
  · intro hmem
    exact (Finset.mem_filter.mp hmem).2.2 hleaf

end Finite

namespace DefinitelyInitializedState

/-- The domain is monotone and of finite height.  A state is the higher the fewer leaf
places it denotes. -/
noncomputable def finiteHeight (hfinite : {place | IsPlace tcx body place}.Finite)
    (hbuilt : PlacesBuilt tcx body) : FiniteHeight (abstractState tcx body) body where
  Good := CanonicalPlaces tcx body
  le left right := leafPlaces tcx body right ⊆ leafPlaces tcx body left
  rank := missingLeaves hfinite
  height := hfinite.toFinset.card
  needToWiden _ := rfl
  good_entry := canonical_entryState
  good_join := canonical_join
  good_statement := canonical_of_statement hbuilt
  good_terminator hgood h := canonical_of_terminator hbuilt hgood h
  refl _ := Set.Subset.rfl
  trans hfirst hsecond := hsecond.trans hfirst
  le_join_left _ _ := by
    change leafPlaces tcx body (join _ _) ⊆ _
    rw [leafPlaces_join]
    exact Set.inter_subset_left
  join_le_join _ _ _ _ hleft hright := by
    change leafPlaces tcx body (join _ _) ⊆ leafPlaces tcx body (join _ _)
    rw [leafPlaces_join, leafPlaces_join]
    exact Set.inter_subset_inter hleft hright
  statement_le hleft hright hle h h' := by
    obtain ⟨statement, hstatement, -, hleaves⟩ := exists_statement_of_ok hbuilt hleft h
    obtain ⟨statement', hstatement', -, hleaves'⟩ := exists_statement_of_ok hbuilt hright h'
    obtain rfl := Option.some_inj.mp (hstatement.symm.trans hstatement')
    rw [hleaves, hleaves']
    exact statementEffect_subset hle statement
  terminator_le hleft hright hle h h' := by
    obtain ⟨kind, hkind, hdenotes⟩ := exists_terminator_of_ok hbuilt hleft h
    obtain ⟨kind', hkind', hdenotes'⟩ := exists_terminator_of_ok hbuilt hright h'
    obtain rfl := Option.some_inj.mp (hkind.symm.trans hkind')
    exact edgesDenote_le hdenotes hdenotes'
      (terminatorEffect_subset _ _ hle (fun _ => Set.Subset.rfl) kind)
  statement_noPanic hlt hgood := applyStatementEffect_noPanic hbuilt hgood hlt
  terminator_noPanic hlt hgood := applyTerminatorEffect_noPanic hbuilt hgood hlt
  rank_le _ := missingLeaves_le hfinite _
  rank_lt := missingLeaves_lt hfinite

/-- The analysis of a body with finitely many places ends after finitely many rounds, with
a result or an error that it reports. -/
theorem runFwdAnalysis_terminates (hfinite : {place | IsPlace tcx body place}.Finite)
    (hbuilt : PlacesBuilt tcx body) :
    ∃ bound, ∀ fuel ≥ bound,
      (∃ pState, runFwdAnalysis (abstractState tcx body) body fuel = .ok pState) ∨
        ∃ raised, runFwdAnalysis (abstractState tcx body) body fuel = .error (.error raised) := by
  refine ⟨remaining (finiteHeight hfinite hbuilt) (initialIteration body), fun fuel hfuel => ?_⟩
  have hnoPanic := (finiteHeight hfinite hbuilt).runFwdAnalysis_noPanic hfuel
  cases hrun : runFwdAnalysis (abstractState tcx body) body fuel with
  | ok pState => exact .inl ⟨pState, rfl⟩
  | error stop =>
    obtain ⟨raised, rfl⟩ := hnoPanic stop hrun
    exact .inr ⟨raised, rfl⟩

namespace Witness

/-- One field of a pair is moved out and assigned again in a loop. -/
def refillBody : Body Bool where
  basicBlocks := [
    ⟨[.assign ⟨0, []⟩ (.use (.move ⟨1, [.field 0 false]⟩))], .goto 1⟩,
    ⟨[.assign ⟨1, [.field 0 false]⟩ (.use .constant)], .switchInt .constant [0, 2]⟩, ⟨[], .return⟩]
  localDecls := [false, true]
  argCount := 1
  startBlock_lt := by decide
  argCount_lt := Nat.one_lt_two
  target_lt := by decide

theorem isPlace_field : IsPlace pairTcx refillBody ⟨1, [.field 0 false]⟩ := by
  have hroot : IsPlace pairTcx refillBody (Place.ofLocal 1) := .ofLocal (by decide)
  exact hroot.project (by decide)

theorem placesBuilt_refillBody : PlacesBuilt pairTcx refillBody := by
  have hroot : IsPlace pairTcx refillBody ⟨0, []⟩ := .ofLocal (by decide)
  refine ⟨?_, ?_⟩
  · intro bb statement hstatement
    match bb with
    | 0 =>
      obtain rfl := List.mem_singleton.mp hstatement
      exact List.forall_mem_cons.mpr ⟨hroot, List.forall_mem_singleton.mpr isPlace_field⟩
    | 1 =>
      obtain rfl := List.mem_singleton.mp hstatement
      exact List.forall_mem_singleton.mpr isPlace_field
    | 2 => cases hstatement
    | _ + 3 => cases hstatement
  · intro bb kind hkind
    match bb with
    | 0 | 1 | 2 =>
      obtain rfl := Option.some_inj.mp hkind
      exact fun place hplace => nomatch hplace
    | _ + 3 => cases hkind

theorem finite_refillBody : {place | IsPlace pairTcx refillBody place}.Finite := by
  refine Set.Finite.subset (Finset.finite_toSet {⟨0, []⟩, ⟨1, []⟩, ⟨1, [.field 0 false]⟩,
    ⟨1, [.field 1 false]⟩}) ?_
  intro place hplace
  have hchildren : ∀ place ∈ ({⟨0, []⟩, ⟨1, []⟩, ⟨1, [.field 0 false]⟩,
      ⟨1, [.field 1 false]⟩} : Finset (Place Bool)),
        ∀ elem ∈ childElems pairTcx refillBody place, place.project elem ∈
          ({⟨0, []⟩, ⟨1, []⟩, ⟨1, [.field 0 false]⟩, ⟨1, [.field 1 false]⟩} :
            Finset (Place Bool)) := by
    decide
  induction hplace with
  | @ofLocal root h =>
    match root with
    | 0 | 1 => decide
    | _ + 2 => simp [refillBody] at h
  | project _ helem ih => exact hchildren _ ih _ helem

theorem runFwdAnalysis_terminates_refillBody :
    ∃ bound, ∀ fuel ≥ bound,
      (∃ pState, runFwdAnalysis (abstractState pairTcx refillBody) refillBody fuel =
        .ok pState) ∨
        ∃ raised, runFwdAnalysis (abstractState pairTcx refillBody) refillBody fuel =
          .error (.error raised) :=
  runFwdAnalysis_terminates finite_refillBody placesBuilt_refillBody

end Witness

end DefinitelyInitializedState

end Prusti.Analysis

/-
The place sets of the definitely-initialized domain are canonical, and each operation
on them is the operation on the sets of leaf places that they denote.
-/
import Prusti.Analysis.PlaceForest
import Prusti.Analysis.DefinitelyInitialized

namespace Prusti.Analysis

open Prusti.Lib Prusti.Mir

universe u

variable {Ty : Type u} [DecidableEq Ty] (tcx : TyCtxt Ty) (body : Body Ty)

/-- No place lies below another, and no place is missing whose children are all there. -/
def CanonicalPlaces (places : DefInitPlaces Ty) : Prop := (placeForest tcx body).Canonical places

/-- The leaf places that a set denotes. -/
def leafPlaces (places : DefInitPlaces Ty) : Set (Place Ty) := (placeForest tcx body).leaves places

/-- A place that has no fields and is no pointer. -/
def IsLeafPlace (place : Place Ty) : Prop := (placeForest tcx body).IsLeaf place

variable {tcx body} {places others : DefInitPlaces Ty} {place : Place Ty}

theorem expandOneLevel_children {x child : Place Ty} {others : List (Place Ty)}
    (hchild : child ∈ placeChildren tcx body x)
    (hothers : ∀ y, y ∈ others ↔ y ∈ placeChildren tcx body x ∧ y ≠ child) :
    (others ++ [child]).toFinset = (placeForest tcx body).children x := by
  ext y
  rw [List.mem_toFinset, List.mem_append, List.mem_singleton, hothers]
  change _ ↔ y ∈ placeChildren tcx body x
  by_cases heq : y = child
  · subst heq
    simp [hchild]
  · simp [heq]

/-- Merging from the guide upwards keeps the leaves, and ends in a canonical set unless
it reaches the place where it began. -/
theorem collapseLevels_spec {x guide : Place Ty} {levels : Nat} (hle : x ≤ guide)
    (hlevels : guide.projection.length = x.projection.length + levels)
    (hcollapsing : (placeForest tcx body).Collapsing places guide) :
    ∃ result, collapseLevels tcx body guide levels places x = some result ∧
      leafPlaces tcx body result = leafPlaces tcx body places ∧
      (CanonicalPlaces tcx body result ∨ (placeForest tcx body).Collapsing result x) := by
  induction levels generalizing x with
  | zero =>
    have heq : x = guide := by
      by_contra hne
      have := length_lt_of_lt (lt_of_le_of_ne hle hne)
      omega
    subst heq
    exact ⟨places, by rw [collapseLevels, if_pos rfl], rfl, .inr hcollapsing⟩
  | succ levels ih =>
    have hlt : x < guide := lt_of_le_of_ne hle (by rintro rfl; omega)
    obtain ⟨child, siblings, hone, hchild, hchildGuide, hsiblings⟩ :=
      expandOneLevel_spec (hcollapsing.node guide hcollapsing.mem) hlt
    have hdepth : child.projection.length = x.projection.length + 1 :=
      (placeForest tcx body).depth_child hchild
    obtain ⟨result, hresult, hleaves, hcanonical⟩ := ih hchildGuide (by omega)
    have hchildren := expandOneLevel_children hchild hsiblings
    have hrun : collapseLevels tcx body guide (levels + 1) places x =
        if (siblings ++ [child]).all (· ∈ result) then
          some (insert x (result \ (siblings ++ [child]).toFinset))
        else some result := by
      rw [collapseLevels, if_neg hlt.ne, hone]
      change (collapseLevels tcx body guide levels places child).bind _ = _
      rw [hresult]
      rfl
    have hall : (siblings ++ [child]).all (· ∈ result) = true ↔
        (placeForest tcx body).children x ⊆ result := by
      rw [← hchildren, List.all_eq_true]
      simp only [decide_eq_true_eq, Finset.subset_iff, List.mem_toFinset]
    rw [hrun]
    by_cases hsubset : (placeForest tcx body).children x ⊆ result
    · have hne := Finset.ne_empty_of_mem hchild
      have hcollapse : Forest.IsCollapse (placeForest tcx body) result x
          (insert x (result \ (siblings ++ [child]).toFinset)) := by
        intro y
        rw [Finset.mem_insert, Finset.mem_sdiff, hchildren]
      rw [if_pos (hall.mpr hsubset)]
      refine ⟨_, rfl, (hcollapse.leaves_eq hsubset hne).trans hleaves, .inr ?_⟩
      rcases hcanonical with hcanonical | hcanonical
      · exact absurd hsubset (hcanonical.uncollapsed x hne)
      · exact hcollapse.collapsing hcanonical hchild hsubset
    · rw [if_neg (mt hall.mp hsubset)]
      refine ⟨result, rfl, hleaves, .inl ?_⟩
      rcases hcanonical with hcanonical | hcanonical
      · exact hcanonical
      · exact hcanonical.canonical_of_not_subset hchild hsubset

namespace DefinitelyInitializedState

/-- Initialising a place keeps the set canonical and adds the leaves below the place. -/
theorem setPlaceInitialised_spec (hplaces : CanonicalPlaces tcx body places)
    (hplace : IsPlace tcx body place) :
    ∃ result, setPlaceInitialised tcx body places place = some result ∧
      CanonicalPlaces tcx body result ∧
      leafPlaces tcx body result =
        leafPlaces tcx body places ∪ {leaf | IsLeafPlace tcx body leaf ∧ place ≤ leaf} := by
  have hiff : (∃ current ∈ places, isPrefix place current = true) ↔
      ∃ current ∈ places, current ≤ place := by
    simp only [isPrefix_iff]
  rw [setPlaceInitialised]
  by_cases hold : ∃ current ∈ places, current ≤ place
  · rw [if_pos (hiff.mpr hold)]
    refine ⟨places, rfl, hplaces, (Set.union_eq_left.mpr ?_).symm⟩
    rintro leaf ⟨hleaf, hle⟩
    obtain ⟨current, hcurrent, hcurrentLe⟩ := hold
    exact ⟨hleaf, current, hcurrent, hcurrentLe.trans hle⟩
  · rw [if_neg (mt hiff.mp hold)]
    push Not at hold
    have hinsertion : Forest.IsInsertion places place
        (insert place (places.filter fun current => !isPrefix current place)) := by
      intro x
      rw [Finset.mem_insert, Finset.mem_filter, Bool.not_eq_true', ← Bool.not_eq_true, isPrefix_iff]
    have hcollapsing : (placeForest tcx body).Collapsing _ place :=
      hinsertion.collapsing hplace hplaces hold
    have hroot : Place.ofLocal place.local ≤ place := ⟨rfl, List.nil_prefix⟩
    obtain ⟨result, hresult, hleaves, hcanonical⟩ :=
      collapseLevels_spec hroot (Nat.zero_add _).symm hcollapsing
    refine ⟨result, hresult, ?_, hleaves.trans hinsertion.leaves_eq⟩
    rcases hcanonical with hcanonical | hcanonical
    · exact hcanonical
    · exact hcanonical.canonical_of_root (not_mem_children_of_root place.local)

theorem remainingPlaces_spec (hplace : IsPlace tcx body place) (oldPlace : Place Ty) :
    ∃ result, remainingPlaces tcx body place oldPlace = some result ∧
      ∀ y, y ∈ result ↔ (y = oldPlace ∧ ¬ oldPlace ≤ place ∧ ¬ place ≤ oldPlace) ∨
        ∃ z, oldPlace ≤ z ∧ z < place ∧ y ∈ placeChildren tcx body z ∧ ¬ y ≤ place := by
  have hbelow : ∀ y, ¬ oldPlace ≤ place →
      ¬ ∃ z, oldPlace ≤ z ∧ z < place ∧ y ∈ placeChildren tcx body z ∧ ¬ y ≤ place := by
    rintro y hnot ⟨z, hz, hzPlace, -⟩
    exact hnot (hz.trans hzPlace.le)
  rw [remainingPlaces]
  by_cases hle : oldPlace ≤ place
  · obtain ⟨remaining, hremaining, hmem⟩ := expandLevels_spec hplace hle
      (Nat.add_sub_cancel' (length_le_of_le hle)).symm
    refine ⟨remaining.toFinset, ?_, ?_⟩
    · rw [if_pos (isPrefix_iff.mpr hle), expand, if_pos (isPrefix_iff.mpr hle), hremaining]
      rfl
    · intro y
      rw [List.mem_toFinset, hmem]
      simp [hle]
  · rw [if_neg (mt isPrefix_iff.mp hle)]
    by_cases hge : place ≤ oldPlace
    · refine ⟨∅, by rw [if_pos (isPrefix_iff.mpr hge)], fun y => ?_⟩
      refine iff_of_false (Finset.notMem_empty y) ?_
      rintro (⟨-, -, hnot⟩ | hrest)
      · exact hnot hge
      · exact hbelow y hle hrest
    · refine ⟨{oldPlace}, by rw [if_neg (mt isPrefix_iff.mp hge)], fun y => ?_⟩
      rw [Finset.mem_singleton, or_iff_left (hbelow y hle)]
      exact (and_iff_left ⟨hle, hge⟩).symm

/-- Uninitialising a place keeps the set canonical and removes the leaves below the
place. -/
theorem setPlaceUninitialised_spec (hplaces : CanonicalPlaces tcx body places)
    (hplace : IsPlace tcx body place) :
    ∃ result, setPlaceUninitialised tcx body places place = some result ∧
      CanonicalPlaces tcx body result ∧
      leafPlaces tcx body result = {leaf ∈ leafPlaces tcx body places | ¬ place ≤ leaf} := by
  have hnone : ¬ ∃ oldPlace ∈ places, remainingPlaces tcx body place oldPlace = none := by
    rintro ⟨oldPlace, -, hnone⟩
    obtain ⟨result, hresult, -⟩ := remainingPlaces_spec hplace oldPlace
    rw [hresult] at hnone
    cases hnone
  have hdifference : Forest.IsDifference (placeForest tcx body) places place
      (places.biUnion fun oldPlace =>
        (remainingPlaces tcx body place oldPlace).getD ∅) := by
    intro y
    rw [Finset.mem_biUnion]
    constructor
    · rintro ⟨oldPlace, hold, hy⟩
      obtain ⟨result, hresult, hmem⟩ := remainingPlaces_spec hplace oldPlace
      rw [hresult, Option.getD_some, hmem] at hy
      rcases hy with ⟨rfl, hnot⟩ | hrest
      · exact .inl ⟨hold, hnot⟩
      · exact .inr ⟨oldPlace, hold, hrest⟩
    · rintro (⟨hold, hnot⟩ | ⟨oldPlace, hold, hrest⟩)
      · obtain ⟨result, hresult, hmem⟩ := remainingPlaces_spec hplace y
        exact ⟨y, hold, by rw [hresult, Option.getD_some, hmem]; exact .inl ⟨rfl, hnot⟩⟩
      · obtain ⟨result, hresult, hmem⟩ := remainingPlaces_spec hplace oldPlace
        exact ⟨oldPlace, hold, by rw [hresult, Option.getD_some, hmem]; exact .inr hrest⟩
  refine ⟨_, ?_, hdifference.canonical hplace hplaces, hdifference.leaves_eq hplace⟩
  rw [setPlaceUninitialised, if_neg hnone]
  refine if_pos fun place1 hplace1 => ?_
  have hnot := hdifference.not_related hplace1
  rw [Bool.and_eq_true, Bool.not_eq_true', Bool.not_eq_true', ← Bool.not_eq_true,
    ← Bool.not_eq_true, isPrefix_iff, isPrefix_iff]
  exact ⟨hnot.2, hnot.1⟩

theorem isMeet_join (left right : DefInitPlaces Ty) :
    Forest.IsMeet left right (join left right) := by
  intro x
  rw [join, Finset.mem_union, Finset.mem_filter, Finset.mem_filter]
  simp only [isPrefix_iff]

/-- The join keeps canonical sets and intersects their leaves. -/
theorem canonical_join (hplaces : CanonicalPlaces tcx body places)
    (hothers : CanonicalPlaces tcx body others) :
    CanonicalPlaces tcx body (join places others) :=
  (isMeet_join places others).canonical hplaces hothers

theorem leafPlaces_join (places others : DefInitPlaces Ty) :
    leafPlaces tcx body (join places others) =
      leafPlaces tcx body places ∩ leafPlaces tcx body others :=
  (isMeet_join places others).leaves_eq

/-- A set of locals is canonical. -/
theorem canonical_roots {roots : Finset Local} (h : ∀ root ∈ roots, root < body.localDecls.length) :
    CanonicalPlaces tcx body (roots.image Place.ofLocal) := by
  refine ⟨?_, ?_, ?_⟩
  · intro place hplace
    obtain ⟨root, hroot, rfl⟩ := Finset.mem_image.mp hplace
    exact .ofLocal (h root hroot)
  · intro x hx y hy hle
    obtain ⟨root, -, rfl⟩ := Finset.mem_image.mp hy
    exact le_ofLocal_iff.mp hle
  · intro x hne hsubset
    obtain ⟨child, hchild⟩ := Finset.nonempty_iff_ne_empty.mpr hne
    obtain ⟨root, -, rfl⟩ := Finset.mem_image.mp (hsubset hchild)
    exact not_mem_children_of_root root x hchild

theorem canonical_newBottom : CanonicalPlaces tcx body (newBottom body) := by
  refine canonical_roots fun root hroot => ?_
  exact List.mem_range.mp (List.mem_toFinset.mp hroot)

theorem canonical_newInitial : CanonicalPlaces tcx body (newInitial body) := by
  refine canonical_roots fun root hroot => ?_
  obtain ⟨index, hindex, rfl⟩ := List.mem_map.mp (List.mem_toFinset.mp hroot)
  have hle := List.mem_range.mp hindex
  exact (Nat.succ_le_of_lt hle).trans_lt body.argCount_lt

theorem canonical_newTop : CanonicalPlaces tcx body newTop := by
  refine ⟨fun _ h => absurd h (Finset.notMem_empty _),
    fun _ h => absurd h (Finset.notMem_empty _), fun x hne hsubset => ?_⟩
  exact hne (Finset.subset_empty.mp hsubset)

variable (tcx body) in
/-- The sets that the operations of the domain build. -/
inductive Reachable : DefInitPlaces Ty → Prop where
  | newBottom : Reachable (newBottom body)
  | newTop : Reachable newTop
  | newInitial : Reachable (newInitial body)
  | initialised {places result : DefInitPlaces Ty} {place : Place Ty}
      (h : Reachable places) (hplace : IsPlace tcx body place)
      (hresult : setPlaceInitialised tcx body places place = some result) : Reachable result
  | uninitialised {places result : DefInitPlaces Ty} {place : Place Ty}
      (h : Reachable places) (hplace : IsPlace tcx body place)
      (hresult : setPlaceUninitialised tcx body places place = some result) :
      Reachable result
  | join {places others : DefInitPlaces Ty} (h : Reachable places)
      (hothers : Reachable others) : Reachable (join places others)

/-- The invariant: the operations keep canonical sets. -/
theorem Reachable.canonical (h : Reachable tcx body places) : CanonicalPlaces tcx body places := by
  induction h with
  | newBottom => exact canonical_newBottom
  | newTop => exact canonical_newTop
  | newInitial => exact canonical_newInitial
  | initialised _ hplace hresult ih =>
    obtain ⟨result, hspec, hcanonical, -⟩ := setPlaceInitialised_spec ih hplace
    rwa [← Option.some_inj.mp (hspec.symm.trans hresult)]
  | uninitialised _ hplace hresult ih =>
    obtain ⟨result, hspec, hcanonical, -⟩ := setPlaceUninitialised_spec ih hplace
    rwa [← Option.some_inj.mp (hspec.symm.trans hresult)]
  | join _ _ ih ihothers => exact canonical_join ih ihothers

/-- A canonical set lacks one of the fields of every place that has some. -/
theorem exists_missing_field (hplaces : CanonicalPlaces tcx body places)
    {fields : List (Place Ty)} (hfields : expandStructPlace tcx body place none = some fields)
    (hne : fields ≠ []) : ∃ field ∈ fields, field ∉ places := by
  by_contra hall
  push Not at hall
  have hisPlace := fun field hfield => hplaces.node field (hall field hfield)
  have hchildren := mem_childElems_of_fields hne hfields hisPlace
  refine hplaces.uncollapsed place ?_ ?_
  · obtain ⟨field, hfield⟩ := List.exists_mem_of_ne_nil fields hne
    exact Finset.ne_empty_of_mem (mem_placeChildren_iff.mpr ((hchildren field).mpr hfield))
  · intro child hchild
    exact hall child ((hchildren child).mp (mem_placeChildren_iff.mp hchild))

/-- The sets that the operations build are prefix-free, they have a place itself instead
of all its fields, and they are equal when they denote the same leaf places, provided that
every place has a leaf place at or below it. -/
theorem Reachable.prefixFree_and_eq_iff (hplaces : Reachable tcx body places)
    (hothers : Reachable tcx body others) :
    (∀ place ∈ places, ∀ place' ∈ places, isPrefix place' place = true → place' = place) ∧
    (∀ place fields, expandStructPlace tcx body place none = some fields → fields ≠ [] →
      ∃ field ∈ fields, field ∉ places) ∧
    ((∀ place, IsPlace tcx body place →
        ∃ leaf, IsLeafPlace tcx body leaf ∧ isPrefix leaf place = true) →
      (places = others ↔ leafPlaces tcx body places = leafPlaces tcx body others)) := by
  have hcanonical := hplaces.canonical
  refine ⟨?_, fun place fields => exists_missing_field hcanonical, fun hbounded => ?_⟩
  · intro place hplace place' hplace' hpre
    exact (hcanonical.antichain place hplace place' hplace' (isPrefix_iff.mp hpre)).symm
  · refine ⟨fun heq => by rw [heq], fun heq => ?_⟩
    refine hcanonical.eq_of_leaves_eq hothers.canonical ?_ heq
    intro place hplace
    obtain ⟨leaf, hleaf, hpre⟩ := hbounded place hplace
    exact ⟨leaf, hleaf, isPrefix_iff.mp hpre⟩

namespace Witness

/-- `true` is the type of pairs of `false`. -/
def pairTcx : TyCtxt Bool where
  kind ty := if ty then .tuple [false, false] else .other

def pairBody : Body Bool where
  basicBlocks := [⟨[], .return⟩]
  localDecls := [false, true]
  argCount := 1
  startBlock_lt := by decide
  argCount_lt := Nat.one_lt_two
  target_lt := by decide

theorem exists_leafPlace {place : Place Bool} (h : IsPlace pairTcx pairBody place) :
    ∃ leaf, IsLeafPlace pairTcx pairBody leaf ∧ isPrefix leaf place = true := by
  have hleaf : ∀ {leaf : Place Bool}, IsPlace pairTcx pairBody leaf →
      pairTcx.placeTy pairBody leaf = some ⟨false, none⟩ → IsLeafPlace pairTcx pairBody leaf := by
    intro leaf hleaf hty
    refine ⟨hleaf, ?_⟩
    change placeChildren pairTcx pairBody leaf = ∅
    rw [placeChildren, childElems_eq hty]
    rfl
  obtain ⟨ty, hty⟩ := h.exists_ty
  cases ty with
  | false => exact ⟨place, hleaf h hty, isPrefix_iff.mpr le_rfl⟩
  | true =>
    have helem : ProjectionElem.field 0 false ∈ childElems pairTcx pairBody place := by
      rw [childElems_eq hty]
      decide
    refine ⟨place.project (.field 0 false), hleaf (.project h helem) ?_,
      isPrefix_iff.mpr (place_le_project place _)⟩
    rw [placeTy_project, hty]
    rfl

def pair : Place Bool := Place.ofLocal 1
def first : Place Bool := pair.project (.field 0 false)
def second : Place Bool := pair.project (.field 1 false)

/-- The first field of the pair is moved out on one path, and assigned again on another. -/
theorem prefixFree_and_eq_iff_moved :
    (∀ place ∈ join {second} {pair}, ∀ place' ∈ join {second} {pair},
      isPrefix place' place = true → place' = place) ∧
    (∀ place fields, expandStructPlace pairTcx pairBody place none = some fields →
      fields ≠ [] → ∃ field ∈ fields, field ∉ join {second} {pair}) ∧
    (join {second} {pair} = {second} ↔ leafPlaces pairTcx pairBody (join {second} {pair}) =
      leafPlaces pairTcx pairBody {second}) := by
  have hfirst : IsPlace pairTcx pairBody first := .project (.ofLocal (by decide)) (by decide)
  have hmoved : Reachable pairTcx pairBody {second} := .uninitialised .newInitial hfirst (by decide)
  have hassigned : Reachable pairTcx pairBody {pair} := .initialised hmoved hfirst (by decide)
  have h := Reachable.prefixFree_and_eq_iff (.join hmoved hassigned) hmoved
  exact ⟨h.1, h.2.1, h.2.2 fun _ => exists_leafPlace⟩

/-- `true` is a struct with one field, a reference to the same struct. -/
def cyclicTcx : TyCtxt Bool where
  kind ty := if ty then .adt true none [false] else .ref true

def cyclicBody : Body Bool where
  basicBlocks := [⟨[], .return⟩]
  localDecls := [true, true]
  argCount := 1
  startBlock_lt := by decide
  argCount_lt := Nat.one_lt_two
  target_lt := by decide

/-- A type without leaf places does not tell the empty set from an argument of that
type. -/
theorem not_eq_iff_leafPlaces :
    Reachable cyclicTcx cyclicBody newTop ∧
      Reachable cyclicTcx cyclicBody (newInitial cyclicBody) ∧
      leafPlaces cyclicTcx cyclicBody newTop =
        leafPlaces cyclicTcx cyclicBody (newInitial cyclicBody) ∧
      newTop ≠ newInitial cyclicBody := by
  have hnone : ∀ places, leafPlaces cyclicTcx cyclicBody places = ∅ := by
    intro places
    rw [Set.eq_empty_iff_forall_notMem]
    rintro leaf ⟨⟨hleaf, hchildren⟩, -⟩
    obtain ⟨ty, hty⟩ := IsPlace.exists_ty hleaf
    change placeChildren cyclicTcx cyclicBody leaf = ∅ at hchildren
    rw [placeChildren, childElems_eq hty] at hchildren
    cases ty with
    | false => simp [cyclicTcx, kindElems] at hchildren
    | true => simp [cyclicTcx, kindElems] at hchildren
  exact ⟨.newTop, .newInitial, (hnone _).trans (hnone _).symm, by decide⟩

end Witness

end DefinitelyInitializedState

end Prusti.Analysis

/-
The sets of places that the loop invariant is built from, and the list of the prefixes of
a place.  `none` stands for a failed assertion, an index out of bounds or a case that is
not implemented.
-/
import Prusti.Analysis.PlaceForest

namespace Prusti.LoopInvariant

open Prusti.Mir Prusti.Analysis

universe u

variable {Ty : Type u}

/-- What the compiler says about the types of places. -/
structure PlaceTypes (Ty : Type u) where
  placeTy : Place Ty → PlaceTy Ty
  kind : Ty → TyKind Ty

/-- The places below a base along a list of projections. -/
def pathFrom (base : Place Ty) : List (ProjectionElem Ty) → List (Place Ty)
  | [] => []
  | elem :: elems => base.project elem :: pathFrom (base.project elem) elems

/-- The prefixes of a place below its local. -/
def pathOf (place : Place Ty) : List (Place Ty) :=
  pathFrom (Place.ofLocal place.local) place.projection

/-- Some place of the set is a prefix. -/
def Covers (places : Finset (Place Ty)) (place : Place Ty) : Prop := ∃ above ∈ places, above ≤ place

theorem le_of_mem_fieldPlaces {current child : Place Ty} {fields : List Ty}
    {withoutField : Option Nat} (h : child ∈ fieldPlaces current fields withoutField) :
    current ≤ child := by
  obtain ⟨field, -, rfl⟩ := List.mem_map.mp h
  exact place_le_project _ _

section Prefixes

variable (types : PlaceTypes Ty)

def expandStructPlace (place : Place Ty) (withoutField : Option Nat) : Option (List (Place Ty)) :=
  let typ := types.placeTy place
  if typ.variantIndex.isSome then
    -- Downcast is a no-op.
    some []
  else
    match types.kind typ.ty with
    | .adt isStruct _ fields =>
      if isStruct then some (fieldPlaces place fields withoutField) else none
    | .tuple elements => some (fieldPlaces place elements withoutField)
    | .ref _ =>
      match withoutField with
      | some withoutField => if withoutField = 0 then some [] else none
      | none => some [place.project .deref]
    | _ => none

/-- One level down from a place on the way to the guide, and the other places that could
have resulted. -/
def expandOneLevel (currentPlace guidePlace : Place Ty) : Option (Place Ty × List (Place Ty)) := do
  let elem ← guidePlace.projection[currentPlace.projection.length]?
  match elem with
  | .field projectedField fieldTy => do
    let places ← expandStructPlace types currentPlace (some projectedField)
    some (currentPlace.project (.field projectedField fieldTy), places)
  | .downcast variant =>
    match types.kind (types.placeTy currentPlace).ty with
    | .adt _ _ _ => some (currentPlace.project (.downcast variant), [])
    | _ => none
  | .deref => some (currentPlace.project .deref, [])
  | .index idx => some (currentPlace.project (.index idx), [])
  | .constantIndex _ _ _ | .subslice _ _ _ => none

/-- The loop of `vecPlace`, for as many levels as the prefix is above the place. -/
def vecPlaceLevels (place : Place Ty) : Nat → Place Ty → Option (List (Place Ty))
  | 0, _ => some []
  | levels + 1, pre => do
    let (newPrefix, _) ← expandOneLevel types pre place
    let components ← vecPlaceLevels place levels newPrefix
    some (newPrefix :: components)

/-- A place as the list of its prefixes, from the local down to the place. -/
def vecPlace (place : Place Ty) : Option (List (Place Ty)) :=
  (vecPlaceLevels types place place.projection.length (Place.ofLocal place.local)).map
    fun components => Place.ofLocal place.local :: components

variable {types} {place guide current : Place Ty}

theorem le_of_expandStructPlace {withoutField : Option Nat} {expansion : List (Place Ty)}
    (h : expandStructPlace types current withoutField = some expansion) :
    ∀ child ∈ expansion, current ≤ child := by
  unfold expandStructPlace at h
  dsimp only at h
  split at h
  · cases h
    exact fun _ hchild => absurd hchild List.not_mem_nil
  · split at h
    · split at h
      · cases h
        exact fun _ => le_of_mem_fieldPlaces
      · cases h
    · cases h
      exact fun _ => le_of_mem_fieldPlaces
    · split at h
      · split at h
        · cases h
          exact fun _ hchild => absurd hchild List.not_mem_nil
        · cases h
      · cases h
        intro child hchild
        rw [List.mem_singleton.mp hchild]
        exact place_le_project _ _
    · cases h

/-- One level down: the next projection of the guide, and other places below. -/
theorem expandOneLevel_spec {new : Place Ty} {expansion : List (Place Ty)}
    (h : expandOneLevel types current guide = some (new, expansion)) :
    (∃ elem, guide.projection[current.projection.length]? = some elem ∧
      new = current.project elem) ∧ ∀ child ∈ expansion, current ≤ child := by
  simp only [expandOneLevel, Option.bind_eq_bind, Option.bind_eq_some_iff] at h
  obtain ⟨elem, helem, h⟩ := h
  cases elem with
  | field index ty =>
    simp only [Option.bind_eq_some_iff, Option.some.injEq, Prod.mk.injEq] at h
    obtain ⟨others, hothers, rfl, rfl⟩ := h
    exact ⟨⟨_, helem, rfl⟩, le_of_expandStructPlace hothers⟩
  | downcast variant =>
    dsimp only at h
    split at h
    · cases h
      exact ⟨⟨_, helem, rfl⟩, fun _ hchild => absurd hchild List.not_mem_nil⟩
    · cases h
  | deref =>
    cases h
    exact ⟨⟨_, helem, rfl⟩, fun _ hchild => absurd hchild List.not_mem_nil⟩
  | index idx =>
    cases h
    exact ⟨⟨_, helem, rfl⟩, fun _ hchild => absurd hchild List.not_mem_nil⟩
  | constantIndex | subslice => cases h

theorem vecPlaceLevels_eq {levels : Nat} {base : Place Ty} {components : List (Place Ty)}
    {elems : List (ProjectionElem Ty)} (hplace : place = ⟨base.local, base.projection ++ elems⟩)
    (hlevels : elems.length = levels)
    (h : vecPlaceLevels types place levels base = some components) :
    components = pathFrom base elems := by
  induction levels generalizing base elems components with
  | zero =>
    cases h
    rw [List.length_eq_zero_iff.mp hlevels, pathFrom]
  | succ levels ih =>
    simp only [vecPlaceLevels, Option.bind_eq_bind, Option.bind_eq_some_iff, Option.some.injEq] at h
    obtain ⟨⟨new, expansion⟩, hone, rest, hrest, rfl⟩ := h
    obtain ⟨⟨elem, helem, rfl⟩, -⟩ := expandOneLevel_spec hone
    cases elems with
    | nil => cases hlevels
    | cons first elems =>
      have hfirst : first = elem := by
        rw [hplace, List.getElem?_append_right (Nat.le_refl _), Nat.sub_self] at helem
        exact Option.some.inj helem
      subst hfirst
      have hrest' : place = ⟨(base.project first).local,
          (base.project first).projection ++ elems⟩ := by
        rw [hplace]
        simp
      rw [pathFrom, ih hrest' (by simpa using hlevels) hrest]

theorem vecPlace_eq {components : List (Place Ty)} (h : vecPlace types place = some components) :
    components = Place.ofLocal place.local :: pathOf place := by
  obtain ⟨rest, hrest, rfl⟩ := Option.map_eq_some_iff.mp h
  exact congrArg _ (vecPlaceLevels_eq rfl rfl hrest)

end Prefixes

variable [DecidableEq Ty] (types : PlaceTypes Ty)

/-- Merge places bottom-up along the way from the current place to the guide, which is at
most so many levels below. -/
def collapseLevels (guidePlace : Place Ty) :
    Nat → Finset (Place Ty) → Place Ty → Option (Finset (Place Ty))
  | levels, places, currentPlace =>
    if currentPlace = guidePlace then some places
    else
      match levels with
      | 0 => none
      | levels + 1 => do
        let (newCurrentPlace, expansion) ← expandOneLevel types currentPlace guidePlace
        let places ← collapseLevels guidePlace levels places newCurrentPlace
        let expansion := expansion ++ [newCurrentPlace]
        if expansion.all (· ∈ places) then
          some (insert currentPlace (places \ expansion.toFinset))
        else some places

def collapse (places : Finset (Place Ty)) (guidePlace : Place Ty) : Option (Finset (Place Ty)) :=
  collapseLevels types guidePlace guidePlace.projection.length places
    (Place.ofLocal guidePlace.local)

namespace PlaceSet

/-- Never a place and any of its descendants at the same time. -/
def checkInvariant (places : Finset (Place Ty)) : Bool :=
  decide (∀ place1 ∈ places, ∀ place2 ∈ places, place1 ≠ place2 →
    isPrefix place1 place2 = false ∧ isPrefix place2 place1 = false)

/-- Unless the place is covered already, it replaces the places below it, and what is
complete then is merged. -/
def insertUncovered (places : Finset (Place Ty)) (place : Place Ty) : Option (Finset (Place Ty)) :=
  if ∃ other ∈ places, isPrefix place other = true then some places
  else
    collapse types
      (Insert.insert place (places.filter fun other => isPrefix other place = false)) place

def insert (places : Finset (Place Ty)) (place : Place Ty) : Option (Finset (Place Ty)) :=
  if checkInvariant places then do
    let places ← insertUncovered types places place
    if checkInvariant places then some places else none
  else none

end PlaceSet

variable {types} {place guide current : Place Ty} {places others : Finset (Place Ty)}

/-- Merging keeps what is covered. -/
theorem covers_collapseLevels {levels : Nat}
    (h : collapseLevels types guide levels places current = some others)
    (hcovers : Covers places place) : Covers others place := by
  induction levels generalizing current others with
  | zero =>
    rw [collapseLevels] at h
    split at h
    · cases h
      exact hcovers
    · cases h
  | succ levels ih =>
    rw [collapseLevels] at h
    split at h
    · cases h
      exact hcovers
    · simp only [Option.bind_eq_bind, Option.bind_eq_some_iff] at h
      obtain ⟨⟨new, expansion⟩, hone, merged, hmerged, h⟩ := h
      obtain ⟨⟨elem, -, rfl⟩, hexpansion⟩ := expandOneLevel_spec hone
      have hmergedCovers := ih hmerged
      dsimp only at h
      split at h
      · cases h
        obtain ⟨above, habove, hle⟩ := hmergedCovers
        by_cases hremoved : above ∈ expansion ++ [current.project elem]
        · refine ⟨current, Finset.mem_insert_self _ _, le_trans ?_ hle⟩
          rcases List.mem_append.mp hremoved with hchild | hchild
          · exact hexpansion above hchild
          · rw [List.mem_singleton.mp hchild]
            exact place_le_project _ _
        · refine ⟨above, Finset.mem_insert_of_mem (Finset.mem_sdiff.mpr ⟨habove, ?_⟩), hle⟩
          rwa [List.mem_toFinset]
      · cases h
        exact hmergedCovers

/-- What an insertion does: the place is covered, what was covered still is, and no place
lies below another. -/
theorem PlaceSet.insert_spec {result : Finset (Place Ty)}
    (h : PlaceSet.insert types places place = some result) :
    Covers result place ∧ (∀ other, Covers places other → Covers result other) ∧
      PlaceSet.checkInvariant result = true := by
  unfold PlaceSet.insert at h
  split at h
  · simp only [Option.bind_eq_bind, Option.bind_eq_some_iff] at h
    obtain ⟨merged, hmerged, h⟩ := h
    split at h
    · next hinvariant =>
        cases h
        refine ⟨?_, ?_, hinvariant⟩
        · rw [insertUncovered] at hmerged
          split at hmerged
          · next hcovered =>
              cases hmerged
              obtain ⟨other, hother, hpre⟩ := hcovered
              exact ⟨other, hother, isPrefix_iff.mp hpre⟩
          · exact covers_collapseLevels hmerged ⟨place, Finset.mem_insert_self _ _, le_rfl⟩
        · intro other hother
          rw [insertUncovered] at hmerged
          split at hmerged
          · cases hmerged
            exact hother
          · apply covers_collapseLevels hmerged
            obtain ⟨above, habove, hle⟩ := hother
            cases hbelow : isPrefix above place with
            | true => exact ⟨place, Finset.mem_insert_self _ _, (isPrefix_iff.mp hbelow).trans hle⟩
            | false =>
              exact ⟨above, Finset.mem_insert_of_mem (Finset.mem_filter.mpr ⟨habove, hbelow⟩), hle⟩
    · cases h
  · cases h

end Prusti.LoopInvariant

/-
Prefixes of places, and splitting and merging places along the way to another place.
`none` stands for a failed assertion, an index out of bounds or a case that is not
implemented.
-/
import Mathlib.Data.Finset.SDiff
import Prusti.Mir.Body

namespace Prusti.Analysis

open Prusti.Mir

universe u

variable {Ty : Type u} [DecidableEq Ty]

def isPrefix (place potentialPrefix : Place Ty) : Bool :=
  if place.local ≠ potentialPrefix.local ∨
      place.projection.length < potentialPrefix.projection.length then false
  else (place.projection.zip potentialPrefix.projection).all fun elems => elems.1 = elems.2

/-- The places of the fields, in order, less one of them. -/
def fieldPlaces (place : Place Ty) (fields : List Ty) (withoutField : Option Nat) :
    List (Place Ty) :=
  (fields.zipIdx.filter fun field => some field.2 ≠ withoutField).map fun field =>
    place.project (.field field.2 field.1)

variable (tcx : TyCtxt Ty) (body : Body Ty)

/-- The fields of a place of a struct, tuple or reference type. -/
def expandStructPlace (place : Place Ty) (withoutField : Option Nat) :
    Option (List (Place Ty)) := do
  let typ ← tcx.placeTy body place
  if typ.variantIndex.isSome then
    -- Downcast is a no-op.
    some []
  else
    match tcx.kind typ.ty with
    | .adt isStruct _ fields =>
      if isStruct then some (fieldPlaces place fields withoutField) else none
    | .tuple elements => some (fieldPlaces place elements withoutField)
    | .ref _ =>
      match withoutField with
      | some withoutField => if withoutField = 0 then some [] else none
      | none => some [place.project .deref]
    | _ => none

/-- One level down from a place on the way to the guide, and the other places that could
have resulted. -/
def expandOneLevel (currentPlace guidePlace : Place Ty) : Option (Place Ty × List (Place Ty)) := do
  let elem ← guidePlace.projection[currentPlace.projection.length]?
  match elem with
  | .field projectedField fieldTy => do
    let places ← expandStructPlace tcx body currentPlace (some projectedField)
    some (currentPlace.project (.field projectedField fieldTy), places)
  | .downcast variant => do
    let typ ← tcx.placeTy body currentPlace
    match tcx.kind typ.ty with
    | .adt _ _ _ => some (currentPlace.project (.downcast variant), [])
    | _ => none
  | .deref => some (currentPlace.project .deref, [])
  | .index _ | .constantIndex _ _ _ | .subslice _ _ _ => none

/-- The loop of `expand`, for as many levels as the minuend is above the subtrahend. -/
def expandLevels (subtrahend : Place Ty) : Nat → Place Ty → Option (List (Place Ty))
  | 0, _ => some []
  | levels + 1, minuend => do
    let (newMinuend, places) ← expandOneLevel tcx body minuend subtrahend
    let others ← expandLevels subtrahend levels newMinuend
    some (places ++ others)

/-- The places that are left of the minuend without the subtrahend. -/
def expand (minuend subtrahend : Place Ty) : Option (List (Place Ty)) :=
  if isPrefix subtrahend minuend then
    expandLevels tcx body subtrahend
      (subtrahend.projection.length - minuend.projection.length) minuend
  else none

/-- Merge places bottom-up along the way from the current place to the guide, which is at
most so many levels below. -/
def collapseLevels (guidePlace : Place Ty) :
    Nat → Finset (Place Ty) → Place Ty → Option (Finset (Place Ty))
  | levels, places, currentPlace =>
    if currentPlace = guidePlace then some places
    else
      match levels with
      | 0 => none
      | levels + 1 => do
        let (newCurrentPlace, expansion) ←
          expandOneLevel tcx body currentPlace guidePlace
        let places ← collapseLevels guidePlace levels places newCurrentPlace
        let expansion := expansion ++ [newCurrentPlace]
        if expansion.all (· ∈ places) then
          some (insert currentPlace (places \ expansion.toFinset))
        else some places

def collapse (places : Finset (Place Ty)) (guidePlace : Place Ty) : Option (Finset (Place Ty)) :=
  collapseLevels tcx body guidePlace guidePlace.projection.length places
    (Place.ofLocal guidePlace.local)

end Prusti.Analysis

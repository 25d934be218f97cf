/-
The predicates that the type encoder makes for enumerations, and the values
that their discriminants can have.
-/
import Prusti.Vir.Predicate
import Mathlib.Data.List.Sort

namespace Prusti.Encoder

open Prusti.Vir

/-- A literal of a 128-bit integer. -/
def ofBigInt (value : Int) : Expr := .const (.bigInt (toString value)) Position.default

/-- Extend the current range by consecutive values. -/
def rangeLoop : Int × Int → List Int → List (Int × Int)
  | current, [] => [current]
  | current, value :: rest =>
    if value == current.2 + 1 then rangeLoop (current.1, current.2 + 1) rest
    else current :: rangeLoop (value, value) rest

/-- Extract ranges of consecutive values. -/
def rangeExtract (values : List Int) : List (Int × Int) :=
  match values.insertionSort (· ≤ ·) with
  | [] => []
  | value :: rest => rangeLoop (value, value) rest

/-- The condition that a discriminant lies in a range. -/
def rangeExpr (discriminantLoc : Expr) (range : Int × Int) : Expr :=
  if range.1 == range.2 then
    Expr.eqCmp discriminantLoc (ofBigInt range.1)
  else
    Expr.mkAnd (Expr.leCmp (ofBigInt range.1) discriminantLoc)
      (Expr.leCmp discriminantLoc (ofBigInt range.2))

/-- A disjunction that lists all possible discriminant values.  For a type
without variants it is `true`. -/
def computeDiscriminantBounds (discriminantLoc : Expr) (discrValues : List Int) : Expr :=
  if discrValues.isEmpty then Expr.ofBool true
  else Expr.disjoin ((rangeExtract discrValues).map (rangeExpr discriminantLoc))

/-- The definition of a variant: its discriminant, its name and its encoded
fields. -/
structure VariantDef where
  discriminant : Int
  name : String
  fields : List Field
deriving Repr

/-- The encoding of one variant; `none` stands for a panic. -/
def encodeVariant (typ : Typ) (discriminantLoc : Expr)
    (variant : VariantDef) : Option EnumVariant := do
  let variantTyp ← typ.variant variant.name
  let predicate ← StructPredicate.new variantTyp variant.fields
  pure
    { guard := Expr.eqCmp discriminantLoc (ofBigInt variant.discriminant)
      name := variant.name
      predicate := predicate }

/-- The predicate of an enumeration. -/
def encodeEnumPredicate (typ : Typ) (discriminantField : Field)
    (variants : List VariantDef) : Option EnumPredicate := do
  let this : LocalVar := ⟨"self", typ⟩
  let discriminantLoc := (Expr.ofLocal this).mkField discriminantField
  let encoded ← variants.mapM (encodeVariant typ discriminantLoc)
  pure
    { name := typ.name
      this := this
      discriminantField := discriminantField
      discriminantBounds := computeDiscriminantBounds discriminantLoc
        (variants.map VariantDef.discriminant)
      variants := encoded }

end Prusti.Encoder

/-
The predicates that encode types: one for each structure, tuple or primitive
type, one for each enumeration, and predicates without a body.
-/
import Prusti.Vir.Transform

namespace Prusti.Vir

/-- The predicate for types that have exactly one variant. -/
structure StructPredicate where
  name : String
  /-- The self reference. -/
  this : LocalVar
  body : Option Expr
deriving Repr

/-- A variant of an enumeration.  The guard is a condition on the discriminant
under which the variant holds. -/
structure EnumVariant where
  guard : Expr
  name : String
  predicate : StructPredicate
deriving Repr

/-- The predicate for types that have no or more than one variant. -/
structure EnumPredicate where
  name : String
  /-- The self reference. -/
  this : LocalVar
  discriminantField : Field
  /-- The restrictions of the discriminant field. -/
  discriminantBounds : Expr
  variants : List EnumVariant
deriving Repr

inductive Predicate where
  | struct (predicate : StructPredicate)
  | enum (predicate : EnumPredicate)
  | bodyless (name : String) (this : LocalVar)
deriving Repr

namespace StructPredicate

/-- The permissions of one field in the body of a structure's predicate;
`none` stands for a field that is not of reference type. -/
def fieldPermissions (this : LocalVar) (fld : Field) : Option (List Expr) :=
  match fld.typ with
  | .typedRef name =>
    let location := (Expr.ofLocal this).mkField fld
    some [location.accPermission .write, Expr.mkPredicateAccessPredicate name location .write]
  | _ => none

/-- The predicate of a structure with the given fields. -/
def new (typ : Typ) (fields : List Field) : Option StructPredicate :=
  let this : LocalVar := ⟨"self", typ⟩
  (fields.mapM (fieldPermissions this)).map fun permissions =>
    { name := typ.name
      this := this
      body := some (Expr.conjoin permissions.flatten) }

/-- A predicate access predicate for this predicate. -/
def constructAccess (predicate : StructPredicate) (this : Expr) (permAmount : PermAmount) : Expr :=
  .predicateAccessPredicate predicate.name this permAmount Position.default

/-- Is the body of the predicate just `true`? -/
def hasEmptyBody (predicate : StructPredicate) : Bool :=
  match predicate.body with
  | some (.const (.bool true) _) => true
  | _ => false

end StructPredicate

namespace EnumPredicate

/-- The discriminant of the enumeration. -/
def discriminantLoc (predicate : EnumPredicate) : Expr :=
  (Expr.ofLocal predicate.this).mkField predicate.discriminantField

/-- The place of a variant, as a field of the enumeration. -/
def variantLoc (predicate : EnumPredicate) (variant : EnumVariant) : Expr :=
  (Expr.ofLocal predicate.this).mkField ⟨"enum_" ++ variant.name, variant.predicate.this.typ⟩

/-- The part of the body that is due to one variant.  A variant whose own body
is empty contributes nothing. -/
def variantParts (predicate : EnumPredicate) (variant : EnumVariant) : List Expr :=
  if variant.predicate.hasEmptyBody then []
  else
    let location := predicate.variantLoc variant
    [Expr.mkAnd (location.accPermission .write) (Expr.implies variant.guard
        (variant.predicate.constructAccess location .write))]

/-- The expression that represents the body of the predicate. -/
def body (predicate : EnumPredicate) : Expr :=
  Expr.conjoin (predicate.discriminantLoc.accPermission .write ::
    predicate.discriminantBounds ::
    predicate.variants.flatMap predicate.variantParts)

end EnumPredicate

namespace Predicate

/-- An abstract predicate of the given type. -/
def newAbstract (typ : Typ) : Predicate :=
  .struct { name := typ.name, this := ⟨"self", typ⟩, body := none }

/-- Is this predicate abstract? -/
def isAbstract : Predicate → Bool
  | .struct predicate => predicate.body.isNone
  | _ => false

/-- The conjuncts that restrict a primitive value. -/
def valueBounds (valField : Expr) (bounds : Option (Expr × Expr)) (isUnsigned : Bool) : List Expr :=
  match bounds with
  | some (lower, upper) =>
    [Expr.leCmp lower valField, Expr.leCmp valField upper]
  | none => if isUnsigned then [Expr.leCmp (Expr.ofInt 0) valField] else []

/-- The predicate of a primitive value such as an integer or a boolean. -/
def newPrimitiveValue (typ : Typ) (fld : Field)
    (bounds : Option (Expr × Expr)) (isUnsigned : Bool) : Predicate :=
  let this : LocalVar := ⟨"self", typ⟩
  let valField := (Expr.ofLocal this).mkField fld
  .struct
    { name := typ.name
      this := this
      body := some (Expr.conjoin
        (valField.accPermission .write :: valueBounds valField bounds isUnsigned)) }

/-- The predicate of a composite type with one variant. -/
def newStruct (typ : Typ) (fields : List Field) : Option Predicate :=
  (StructPredicate.new typ fields).map .struct

/-- The predicate of a composite type with no or more than one variant.  The
source asserts that the variants have distinct names. -/
def newEnum (this : LocalVar) (discriminantField : Field)
    (discriminantBounds : Expr) (variants : List EnumVariant) :
    Option Predicate :=
  if (variants.map EnumVariant.name).Nodup then
    some (.enum { name := this.typ.name, this, discriminantField, discriminantBounds, variants })
  else none

/-- The `self` place of a predicate. -/
def selfPlace : Predicate → Expr
  | .struct predicate => Expr.ofLocal predicate.this
  | .enum predicate => Expr.ofLocal predicate.this
  | .bodyless _ this => Expr.ofLocal this

def name : Predicate → String
  | .struct predicate => predicate.name
  | .enum predicate => predicate.name
  | .bodyless name _ => name

end Predicate

end Prusti.Vir

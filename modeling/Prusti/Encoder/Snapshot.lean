/-
The snapshots of types: for every type with data a domain whose elements are
the values of the type, and a function that reads the value of an instance from
the heap.  References and boxes are flattened.
-/
import Prusti.Vir.Interp
import Prusti.Encoder.EnumPredicate

namespace Prusti.Snapshots

open Prusti.Vir Prusti.Lib
open Prusti.Encoder (ofBigInt rangeExtract rangeExpr)

inductive IntTy where
  | i8 | i16 | i32 | i64 | i128 | isize
deriving Repr, DecidableEq

inductive UintTy where
  | u8 | u16 | u32 | u64 | u128 | usize
deriving Repr, DecidableEq

/-- The supported types.  A definition is referred to by its name, so that
types can be recursive. -/
inductive Ty where
  | int (kind : IntTy)
  | uint (kind : UintTy)
  | char
  | bool
  | ref (mutable : Bool) (ty : Ty)
  | box (ty : Ty)
  | tuple (elems : List Ty)
  | adt (name : String)
  | array (elem : Ty) (length : Nat)
  | slice (elem : Ty)
deriving Repr

structure FieldDef where
  ident : String
  ty : Ty
deriving Repr

/-- A variant with its sign-extended discriminant. -/
structure VariantDef where
  ident : String
  discriminant : Int
  fields : List FieldDef
deriving Repr

/-- The definition of a structure or an enumeration. -/
structure AdtDef where
  isEnum : Bool
  variants : List VariantDef
deriving Repr

/-- The definitions of a program and the names of the predicates that encode
its types. -/
structure TypeEnv where
  adtDef : String → AdtDef
  predicateName : Ty → String

/-- Remove any box or reference wrappers. -/
def stripRefsAndBoxes : Ty → Ty
  | .ref _ ty => stripRefsAndBoxes ty
  | .box ty => stripRefsAndBoxes ty
  | ty => ty

namespace TypeEnv

variable (env : TypeEnv)

/-- A field that holds a reference to an instance of a type. -/
def encodeRawRefField (viperFieldName : String) (ty : Ty) : Field :=
  ⟨viperFieldName, .typedRef (env.predicateName ty)⟩

def encodeDereferenceField (ty : Ty) : Field := env.encodeRawRefField "val_ref" ty

/-- Remove the wrappers of a type and dereference an expression accordingly. -/
def stripRefsAndBoxesExpr : Ty → Expr → Ty × Expr
  | .ref _ ty, expr =>
    stripRefsAndBoxesExpr ty (expr.mkField (env.encodeDereferenceField ty))
  | .box ty, expr =>
    stripRefsAndBoxesExpr ty (expr.mkField (env.encodeDereferenceField ty))
  | ty, expr => (ty, expr)

/-- The types with no data. -/
def isUnit : Ty → Bool
  | .tuple elems => elems.isEmpty
  | .adt name =>
    match (env.adtDef name).variants with
    | [] => true
    | [variant] => variant.fields.isEmpty
    | _ => false
  | _ => false

/-- The type of the snapshot of a type. -/
def encodeType (ty : Ty) : Typ :=
  let ty := stripRefsAndBoxes ty
  match ty with
  | .int _ | .uint _ | .char => .int
  | .bool => .bool
  | ty =>
    if env.isUnit ty then .domain "UnitDomain"
    else .snapshot (env.predicateName ty)

end TypeEnv

/-- The constant of the unit domain. -/
def unitFunc : DomainFunc :=
  { name := "unit$", formalArgs := [], returnType := .domain "UnitDomain",
    unique := false, domainName := "UnitDomain" }

def snapUnit : Expr := unitFunc.apply []

def snapFuncName : String := "snap$"

/-- The call of the snap function on an instance of a type. -/
def snapAppExpr (expr : Expr) (exprTyp snapTyp : Typ) : Expr :=
  .funcApp snapFuncName [expr] [⟨"_", exprTyp⟩] snapTyp Position.default

/-- The snapshot of an expression that refers to an instance of a type; the
source decodes the type from the type of the expression. -/
def TypeEnv.snapApp (env : TypeEnv) (ty : Ty) (expr : Expr) : Expr :=
  let stripped := env.stripRefsAndBoxesExpr ty expr
  match stripped.1 with
  | .int _ | .uint _ | .char => stripped.2.mkField ⟨"val_int", .int⟩
  | .bool => stripped.2.mkField ⟨"val_bool", .bool⟩
  | ty =>
    if env.isUnit ty then snapUnit
    else snapAppExpr stripped.2 (.typedRef (env.predicateName ty)) (env.encodeType ty)

structure SnapshotField where
  name : String
  access : Expr
  mirType : Ty
  typ : Typ
deriving Repr

/-- A variant; the discriminant is `-1` when not applicable. -/
structure SnapshotVariant where
  discriminant : Int
  fields : List SnapshotField
  name : Option String
deriving Repr

/-- The bounds of the integer types; `none` for the other ones. -/
def getIntegerBounds : Ty → Option (Expr × Expr)
  | .int .i8 => some (Expr.ofInt (-2 ^ 7), Expr.ofInt (2 ^ 7 - 1))
  | .int .i16 => some (Expr.ofInt (-2 ^ 15), Expr.ofInt (2 ^ 15 - 1))
  | .int .i32 => some (Expr.ofInt (-2 ^ 31), Expr.ofInt (2 ^ 31 - 1))
  | .int .i64 => some (Expr.ofInt (-2 ^ 63), Expr.ofInt (2 ^ 63 - 1))
  | .int .i128 => some (ofBigInt (-2 ^ 127), ofBigInt (2 ^ 127 - 1))
  | .int .isize => some (ofBigInt (-2 ^ 63), ofBigInt (2 ^ 63 - 1))
  | .uint .u8 => some (Expr.ofInt 0, Expr.ofInt (2 ^ 8 - 1))
  | .uint .u16 => some (Expr.ofInt 0, Expr.ofInt (2 ^ 16 - 1))
  | .uint .u32 => some (Expr.ofInt 0, Expr.ofInt (2 ^ 32 - 1))
  | .uint .u64 => some (Expr.ofInt 0, ofBigInt (2 ^ 64 - 1))
  | .uint .u128 => some (Expr.ofInt 0, ofBigInt (2 ^ 128 - 1))
  | .uint .usize => some (Expr.ofInt 0, ofBigInt (2 ^ 64 - 1))
  | .char => some (Expr.ofInt 0, ofBigInt 0x10FFFF)
  | _ => none

def encodeBounds (var : Expr) (ty : Ty) : List Expr :=
  match getIntegerBounds ty with
  | some (lower, upper) => [Expr.leCmp lower var, Expr.leCmp var upper]
  | none => []

/-- Is the type an integer or character type itself? -/
def Ty.isInt : Ty → Bool
  | .int _ | .uint _ | .char => true
  | _ => false

def forallExpr (vars : List LocalVar) (triggers : List (List Expr)) (body : Expr) : Expr :=
  .forAll vars triggers body Position.default

/-- A quantifier over no variables is left out. -/
def forallOrBody (vars : List LocalVar) (triggers : List (List Expr)) (body : Expr) : Expr :=
  if vars.isEmpty then body else forallExpr vars triggers body

section Complex

variable (predicateName : String)

def domainName : String := "Snap$" ++ predicateName

/-- The local variable `self`, as a snapshot. -/
def argDomLocal : LocalVar := ⟨"self", .snapshot predicateName⟩

/-- The local variable `self`, as a reference. -/
def argRefLocal : LocalVar := ⟨"self", .typedRef predicateName⟩

def argRefExpr : Expr := Expr.ofLocal (argRefLocal predicateName)

def discriminantFunc : DomainFunc :=
  { name := "discriminant$", formalArgs := [argDomLocal predicateName],
    returnType := .int, unique := false,
    domainName := domainName predicateName }

/-- The name of an argument of a constructor, which begins with the given
letters. -/
def argName (letters : String) (index : Nat) : String :=
  letters ++ "_" ++ toString index

/-- The arguments of a constructor. -/
def constructorArgs (letters : String) (fields : List SnapshotField) : List LocalVar :=
  fields.zipIdx.map fun item => ⟨argName letters item.2, item.1.typ⟩

def constructorFunc (variantIdx : Nat) (fields : List SnapshotField) : DomainFunc :=
  { name := "cons$" ++ toString variantIdx ++ "$",
    formalArgs := constructorArgs "" fields,
    returnType := .snapshot predicateName, unique := false,
    domainName := domainName predicateName }

def constructorCall (variantIdx : Nat) (fields : List SnapshotField)
    (args : List LocalVar) : Expr :=
  (constructorFunc predicateName variantIdx fields).apply (args.map Expr.ofLocal)

def fieldAccessFunc (variantIdx : Nat) (field : SnapshotField) : DomainFunc :=
  { name := domainName predicateName ++ "$" ++ toString variantIdx ++
      "$field$" ++ field.name,
    formalArgs := [argDomLocal predicateName],
    returnType := field.typ, unique := false,
    domainName := domainName predicateName }

def axiomNamed (name : String) (expr : Expr) : DomainAxiom :=
  ⟨domainName predicateName ++ name, expr, domainName predicateName⟩

/-- The possible values of the discriminant. -/
def discriminantRange (variants : List SnapshotVariant) : DomainAxiom :=
  let discCall := (discriminantFunc predicateName).apply [Expr.ofLocal (argDomLocal predicateName)]
  axiomNamed predicateName "$discriminant_range"
    (forallExpr [argDomLocal predicateName] [[discCall]]
      (Expr.disjoin ((rangeExtract (variants.map (·.discriminant))).map (rangeExpr discCall))))

def injectivity (variantIdx : Nat) (fields : List SnapshotField) : DomainAxiom :=
  let lhsArgs := constructorArgs "_l" fields
  let rhsArgs := constructorArgs "_r" fields
  let lhsCall := constructorCall predicateName variantIdx fields lhsArgs
  let rhsCall := constructorCall predicateName variantIdx fields rhsArgs
  let conjunction := Expr.conjoin ((lhsArgs.zip rhsArgs).map fun item =>
    Expr.eqCmp (Expr.ofLocal item.1) (Expr.ofLocal item.2))
  axiomNamed predicateName ("$" ++ toString variantIdx ++ "$injectivity")
    (forallOrBody (lhsArgs ++ rhsArgs) [[lhsCall, rhsCall]]
      (Expr.implies (Expr.eqCmp lhsCall rhsCall) conjunction))

def discriminantAxiom (variantIdx : Nat) (variant : SnapshotVariant) : DomainAxiom :=
  let args := constructorArgs "" variant.fields
  let call := constructorCall predicateName variantIdx variant.fields args
  axiomNamed predicateName ("$" ++ toString variantIdx ++ "$discriminant_axiom")
    (forallOrBody args [[call]] (Expr.eqCmp ((discriminantFunc predicateName).apply [call])
        (ofBigInt variant.discriminant)))

/-- The axiom for the field at a position of a variant. -/
def fieldAxiom (variantIdx : Nat) (fields : List SnapshotField)
    (field : SnapshotField) (fieldIdx : Nat) : DomainAxiom :=
  let args := constructorArgs "" fields
  let call := constructorCall predicateName variantIdx fields args
  let fieldOfCons := (fieldAccessFunc predicateName variantIdx field).apply [call]
  axiomNamed predicateName ("$" ++ toString variantIdx ++ "$field$" ++ field.name ++ "$axiom")
    (forallOrBody args [[fieldOfCons]] (Expr.eqCmp fieldOfCons
        (Expr.ofLocal ⟨argName "" fieldIdx, field.typ⟩)))

/-- The bounds of the field of every element of the domain. -/
def validAxiom (variantIdx : Nat) (field : SnapshotField) : DomainAxiom :=
  let fieldOfSelf := (fieldAccessFunc predicateName variantIdx field).apply
    [Expr.ofLocal (argDomLocal predicateName)]
  axiomNamed predicateName ("$" ++ toString variantIdx ++ "$field$" ++ field.name ++ "$valid")
    (forallExpr [argDomLocal predicateName] [[fieldOfSelf]]
      (Expr.conjoin (encodeBounds fieldOfSelf field.mirType)))

/-- The axioms of one field. -/
def fieldAxioms (variantIdx : Nat) (fields : List SnapshotField)
    (item : SnapshotField × Nat) : List DomainAxiom :=
  fieldAxiom predicateName variantIdx fields item.1 item.2 ::
    if item.1.mirType.isInt then [validAxiom predicateName variantIdx item.1]
    else []

/-- The axioms of one variant. -/
def variantAxioms (hasMultipleVariants : Bool) (item : SnapshotVariant × Nat) : List DomainAxiom :=
  (if item.1.fields.isEmpty then []
    else [injectivity predicateName item.2 item.1.fields]) ++
  (if hasMultipleVariants then
    [discriminantAxiom predicateName item.2 item.1] else []) ++
  item.1.fields.zipIdx.flatMap (fieldAxioms predicateName item.2 item.1.fields)

/-- The functions of one variant. -/
def variantFuncs (item : SnapshotVariant × Nat) : List DomainFunc :=
  constructorFunc predicateName item.2 item.1.fields ::
    item.1.fields.map (fieldAccessFunc predicateName item.2)

/-- The constructor call that reads a variant from the heap. -/
def variantSnapBody (item : SnapshotVariant × Nat) : Expr :=
  (constructorFunc predicateName item.2 item.1.fields).apply (item.1.fields.map (·.access))

/-- The body of the snap function: the first variant is the default one. -/
def complexSnapBody (variants : List SnapshotVariant) : Option Expr :=
  match variants.zipIdx with
  | [] => none
  | first :: rest => some (rest.foldl (fun body item =>
    .cond (Expr.eqCmp ((argRefExpr predicateName).mkField ⟨"discriminant", .int⟩)
        (ofBigInt item.1.discriminant))
      (variantSnapBody predicateName item) body Position.default)
    (variantSnapBody predicateName first))

/-- The snap function of a type. -/
def snapFunction (posts : List Expr) (body : Expr) : Function :=
  { name := snapFuncName, formalArgs := [argRefLocal predicateName],
    returnType := .snapshot predicateName,
    pres := [Expr.mkPredicateAccessPredicate predicateName
      (argRefExpr predicateName) .read],
    posts := posts, body := some body }

/-- The access functions of a variant, by the names of the fields. -/
def fieldAccessFuncs (item : SnapshotVariant × Nat) : HashMap String DomainFunc :=
  item.1.fields.foldl (fun funcs field =>
    funcs.insert field.name (fieldAccessFunc predicateName item.2 field))
    HashMap.empty

/-- The positions of the named variants. -/
def variantNames (variants : List SnapshotVariant) : HashMap String Nat :=
  variants.zipIdx.foldl (fun names item =>
    match item.1.name with
    | some name => names.insert name item.2
    | none => names) HashMap.empty

end Complex

/-- The snapshot of a structure, a tuple or an enumeration. -/
structure ComplexSnapshot where
  predicateName : String
  domain : Domain
  discriminantFunc : DomainFunc
  snapFunc : Function
  variants : List (DomainFunc × HashMap String DomainFunc)
  variantNames : HashMap String Nat

/-- The domain of a structure, a tuple or an enumeration. -/
def complexDomain (variants : List SnapshotVariant) (predicateName : String) : Domain :=
  let hasMultipleVariants : Bool := 1 < variants.length
  { name := domainName predicateName
    functions :=
      (if hasMultipleVariants then [discriminantFunc predicateName] else []) ++
      variants.zipIdx.flatMap (variantFuncs predicateName)
    axioms :=
      (if hasMultipleVariants then
        [discriminantRange predicateName variants] else []) ++
      variants.zipIdx.flatMap
        (variantAxioms predicateName hasMultipleVariants) }

/-- There must be at least one variant; `none` stands for a panic.  The
fold-unfold pass puts `unfolding` around parts of the body, which changes no
value. -/
def encodeComplex (variants : List SnapshotVariant) (predicateName : String) :
    Option ComplexSnapshot := do
  let body ← complexSnapBody predicateName variants
  some
    { predicateName := predicateName
      domain := complexDomain variants predicateName
      discriminantFunc := Snapshots.discriminantFunc predicateName
      snapFunc := snapFunction predicateName [] body
      variants := variants.zipIdx.map fun item =>
        (constructorFunc predicateName item.2 item.1.fields, fieldAccessFuncs predicateName item)
      variantNames := Snapshots.variantNames variants }

section Sequence

variable (predicateName : String) (elemTyp : Typ)

/-- The constructor of an array or a slice. -/
def seqConsFunc : DomainFunc :=
  { name := "cons$" ++ domainName predicateName ++ "$",
    formalArgs := [⟨"data", .seq elemTyp⟩],
    returnType := .snapshot predicateName, unique := false,
    domainName := domainName predicateName }

/-- The element at an index; only the name of the first argument differs
between arrays and slices. -/
def seqReadFunc (argName : String) : DomainFunc :=
  { name := "read$" ++ domainName predicateName ++ "$",
    formalArgs := [⟨argName, .snapshot predicateName⟩, ⟨"idx", .int⟩],
    returnType := elemTyp, unique := false,
    domainName := domainName predicateName }

def sliceLenFunc : DomainFunc :=
  { name := "len$" ++ domainName predicateName ++ "$",
    formalArgs := [⟨"self", .snapshot predicateName⟩],
    returnType := .int, unique := false,
    domainName := domainName predicateName }

def seqInjectivity : DomainAxiom :=
  let lhsArg : LocalVar := ⟨"_l_data", .seq elemTyp⟩
  let rhsArg : LocalVar := ⟨"_r_data", .seq elemTyp⟩
  let lhsCall := (seqConsFunc predicateName elemTyp).apply [Expr.ofLocal lhsArg]
  let rhsCall := (seqConsFunc predicateName elemTyp).apply [Expr.ofLocal rhsArg]
  axiomNamed predicateName "$injectivity"
    (forallExpr [lhsArg, rhsArg] [[lhsCall, rhsCall]] (Expr.implies (Expr.eqCmp lhsCall rhsCall)
        (Expr.eqCmp (Expr.ofLocal lhsArg) (Expr.ofLocal rhsArg))))

def seqReadAxiom (argName : String) : DomainAxiom :=
  let data : LocalVar := ⟨"data", .seq elemTyp⟩
  let idx : LocalVar := ⟨"idx", .int⟩
  let consCall := (seqConsFunc predicateName elemTyp).apply [Expr.ofLocal data]
  let readCall := (seqReadFunc predicateName elemTyp argName).apply [consCall, Expr.ofLocal idx]
  let seqLookup := Expr.containerOp .seqIndex (Expr.ofLocal data)
    (Expr.ofLocal idx) Position.default
  ⟨predicateName ++ "$read_indices", forallExpr [data, idx] [[readCall], [seqLookup]]
      (Expr.eqCmp readCall seqLookup),
    domainName predicateName⟩

def lenOfSeq : DomainAxiom :=
  let data : LocalVar := ⟨"data", .seq elemTyp⟩
  let lenCall := (sliceLenFunc predicateName).apply
    [(seqConsFunc predicateName elemTyp).apply [Expr.ofLocal data]]
  let seqLen := Expr.containerOp .seqLen (Expr.ofLocal data) (Expr.ofBool true) Position.default
  ⟨predicateName ++ "$len_of_seq",
    forallExpr [data] [[lenCall, seqLen]] (Expr.eqCmp lenCall seqLen), domainName predicateName⟩

def lenPositive : DomainAxiom :=
  let slice : LocalVar := ⟨"slice", .snapshot predicateName⟩
  let lenCall := (sliceLenFunc predicateName).apply [Expr.ofLocal slice]
  ⟨predicateName ++ "$len_positive", forallExpr [slice] [[lenCall]]
      (Expr.mkBinOp .geCmp lenCall (Expr.ofInt 0)),
    domainName predicateName⟩

/-- The snapshot of the element at an index, read from the heap. -/
def lookupPureCall (seq idx : Expr) : Expr :=
  .funcApp "lookup_pure" [seq, idx]
    [⟨"self", .typedRef predicateName⟩, ⟨"idx", .int⟩] elemTyp Position.default

def sliceLenCall (slice : Expr) : Expr :=
  .funcApp "Slice$len" [slice] [⟨"self", .typedRef predicateName⟩] .int Position.default

/-- The elements of the snapshot are those in the heap. -/
def readEqLookup (argName : String) (length : Expr) : Expr :=
  let i := Expr.ofLocal ⟨"i", .int⟩
  let lookupCall := lookupPureCall predicateName elemTyp (argRefExpr predicateName) i
  let readCall := (seqReadFunc predicateName elemTyp argName).apply
    [Expr.ofLocal ⟨"__result", .snapshot predicateName⟩, i]
  let indices := Expr.mkAnd (Expr.leCmp (Expr.ofInt 0) i) (Expr.ltCmp i length)
  .inhaleExhale (forallExpr [⟨"i", .int⟩] [[readCall, lookupCall]]
      (Expr.implies indices (Expr.eqCmp readCall lookupCall)))
    (Expr.ofBool true) Position.default

/-- The body of the snap function of an array. -/
def arraySnapBody (length : Nat) : Expr :=
  (seqConsFunc predicateName elemTyp).apply
    [.seq (.seq elemTyp) ((List.range length).map fun idx =>
      lookupPureCall predicateName elemTyp (argRefExpr predicateName)
        (ofBigInt idx)) Position.default]

def sliceCollectName : String := "slice_collect$" ++ predicateName ++ "$"

/-- The call of the function that collects the elements from an index on. -/
def sliceCollectCall (start : Expr) (argName : String) : Expr :=
  .funcApp (sliceCollectName predicateName) [argRefExpr predicateName, start]
    [⟨argName, .typedRef predicateName⟩, ⟨"start", .int⟩] (.seq elemTyp)
    Position.default

/-- The function that collects the elements of a slice from an index on. -/
def sliceCollectFunc : Function :=
  let seqTyp : Typ := .seq elemTyp
  let start := Expr.ofLocal ⟨"start", .int⟩
  let result := Expr.ofLocal ⟨"__result", seqTyp⟩
  let i := Expr.ofLocal ⟨"i", .int⟩
  let j := Expr.ofLocal ⟨"j", .int⟩
  let lenCall := sliceLenCall predicateName (argRefExpr predicateName)
  let emptySeq := Expr.seq seqTyp [] Position.default
  let startLtLen := Expr.ltCmp start lenCall
  let lookup := lookupPureCall predicateName elemTyp (argRefExpr predicateName)
  let resultLen := Expr.containerOp .seqLen result (Expr.ofInt 0) Position.default
  let resultAt := fun idx =>
    Expr.containerOp .seqIndex result idx Position.default
  let indices := Expr.mkAnd (Expr.mkAnd (Expr.leCmp start i) (Expr.ltCmp i lenCall)) (Expr.mkAnd
      (Expr.mkAnd (Expr.leCmp (Expr.ofInt 0) j) (Expr.ltCmp j (Expr.mkBinOp .sub lenCall start)))
      (Expr.eqCmp i (Expr.mkBinOp .add j start)))
  let restEqLookup := forallExpr [⟨"i", .int⟩, ⟨"j", .int⟩] [[lookup i, resultAt j]]
    (Expr.implies indices (Expr.eqCmp (lookup i) (resultAt j)))
  { name := sliceCollectName predicateName
    formalArgs := [⟨"self", .typedRef predicateName⟩, ⟨"start", .int⟩]
    returnType := seqTyp
    pres := [Expr.mkPredicateAccessPredicate predicateName
        (argRefExpr predicateName) .read,
      Expr.leCmp (Expr.ofInt 0) start]
    posts :=
      [Expr.implies (Expr.mkBinOp .geCmp start lenCall)
          (Expr.eqCmp result emptySeq),
        Expr.implies startLtLen
          (Expr.eqCmp resultLen (Expr.mkBinOp .sub lenCall start)),
        Expr.implies startLtLen
          (Expr.eqCmp (resultAt (Expr.ofInt 0)) (lookup start)),
        Expr.implies startLtLen restEqLookup]
    body := some (.cond (Expr.mkBinOp .geCmp start lenCall) emptySeq
      (.containerOp .seqConcat (.seq seqTyp [lookup start] Position.default)
        (sliceCollectCall predicateName elemTyp (Expr.mkBinOp .add start (Expr.ofInt 1)) "slice")
        Position.default) Position.default) }

/-- The body of the snap function of a slice. -/
def sliceSnapBody : Expr :=
  (seqConsFunc predicateName elemTyp).apply
    [sliceCollectCall predicateName elemTyp (Expr.ofInt 0) "self"]

def arrayDomain : Domain :=
  { name := domainName predicateName
    functions := [seqConsFunc predicateName elemTyp, seqReadFunc predicateName elemTyp "arr"]
    axioms := [seqInjectivity predicateName elemTyp, seqReadAxiom predicateName elemTyp "arr"] }

def sliceDomain : Domain :=
  { name := domainName predicateName
    functions := [seqConsFunc predicateName elemTyp,
      seqReadFunc predicateName elemTyp "self", sliceLenFunc predicateName]
    axioms := [seqInjectivity predicateName elemTyp, seqReadAxiom predicateName elemTyp "self",
      lenOfSeq predicateName elemTyp, lenPositive predicateName] }

end Sequence

/-- Snapshots, as far as the supported types have them. -/
inductive Snapshot where
  /-- Corresponds directly to an existing Viper type. -/
  | primitive (typ : Typ)
  /-- Types with no content. -/
  | unit
  /-- Tuples and definitions. -/
  | complex (snapshot : ComplexSnapshot)
  | array (domain : Domain) (snapFunc : Function) (cons read : DomainFunc)
  | slice (domain : Domain) (snapFunc sliceCollectFunc : Function) (cons read len : DomainFunc)

namespace TypeEnv

variable (env : TypeEnv)

/-- A field of a tuple, of a structure or of a variant. -/
def snapshotField (base : Expr) (viperFieldName : String) (ty : Ty) : SnapshotField :=
  { name := viperFieldName
    access := env.snapApp ty
      (base.mkField (env.encodeRawRefField viperFieldName ty))
    mirType := ty
    typ := env.encodeType ty }

def tupleVariant (predicateName : String) (elems : List Ty) : SnapshotVariant :=
  { discriminant := -1
    fields := elems.zipIdx.map fun item =>
      env.snapshotField (argRefExpr predicateName)
        ("tuple_" ++ toString item.2) item.1
    name := none }

/-- The fields of a variant below a base. -/
def variantFields (base : Expr) (variant : VariantDef) : List SnapshotField :=
  variant.fields.map fun field =>
    env.snapshotField base ("f$" ++ field.ident) field.ty

/-- The place of a variant below `self`. -/
def variantBase (predicateName variantName : String) : Expr :=
  .variant (argRefExpr predicateName)
    ⟨"enum_" ++ variantName, .typedRef (predicateName ++ variantName)⟩
    Position.default

/-- The variants of a definition.  The predicate of an enumeration with one
variant is that of a structure, so that there is no variant to go through. -/
def adtVariants (predicateName : String) (adt : AdtDef) : List SnapshotVariant :=
  if adt.isEnum then
    adt.variants.map fun variant =>
      if adt.variants.length = 1 then
        { discriminant := variant.discriminant
          fields := env.variantFields (argRefExpr predicateName) variant
          name := none }
      else
        { discriminant := variant.discriminant
          fields := env.variantFields
            (variantBase predicateName variant.ident) variant
          name := some variant.ident }
  else
    [{ discriminant := -1
       fields := adt.variants.flatMap
        (env.variantFields (argRefExpr predicateName))
       name := none }]

/-- The variants of a type that has data. -/
def complexVariants (ty : Ty) : Option (List SnapshotVariant) :=
  if env.isUnit ty then none
  else match ty with
  | .tuple elems => some [env.tupleVariant (env.predicateName ty) elems]
  | .adt name => some (env.adtVariants (env.predicateName ty) (env.adtDef name))
  | _ => none

/-- The snapshot of a type without wrappers; `none` stands for the
`unreachable!` cases. -/
def encodeSnapshotInternal (ty : Ty) : Option Snapshot :=
  let predicateName := env.predicateName ty
  match ty with
  | .ref _ _ | .box _ => none
  | .int _ | .uint _ | .char => some (.primitive .int)
  | .bool => some (.primitive .bool)
  | .array elem length =>
    let elemTyp := env.encodeType elem
    some (.array (arrayDomain predicateName elemTyp) (snapFunction predicateName
        [readEqLookup predicateName elemTyp "arr" (ofBigInt length)]
        (arraySnapBody predicateName elemTyp length))
      (seqConsFunc predicateName elemTyp)
      (seqReadFunc predicateName elemTyp "arr"))
  | .slice elem =>
    let elemTyp := env.encodeType elem
    let lenCall := sliceLenCall predicateName (argRefExpr predicateName)
    let snapLen := (sliceLenFunc predicateName).apply
      [Expr.ofLocal ⟨"__result", .snapshot predicateName⟩]
    some (.slice (sliceDomain predicateName elemTyp) (snapFunction predicateName
        [readEqLookup predicateName elemTyp "self" lenCall,
          .inhaleExhale (Expr.eqCmp lenCall snapLen) (Expr.ofBool true) Position.default]
        (sliceSnapBody predicateName elemTyp))
      (sliceCollectFunc predicateName elemTyp)
      (seqConsFunc predicateName elemTyp)
      (seqReadFunc predicateName elemTyp "self")
      (sliceLenFunc predicateName))
  | ty =>
    match env.complexVariants ty with
    | none => some .unit
    | some variants => (encodeComplex variants predicateName).map .complex

end TypeEnv

/-- The domain of a snapshot. -/
def Snapshot.domain? : Snapshot → Option Domain
  | primitive _ | unit => none
  | complex snapshot => some snapshot.domain
  | array domain _ _ _ => some domain
  | slice domain _ _ _ _ _ => some domain

end Prusti.Snapshots

/-
The snapshot encoder: the snapshots of the types that were encoded, and the encodings that
are in progress, each inside of the one before it.
-/
import Prusti.Encoder.Generics
import Prusti.Encoder.SlicedSnapshots

namespace Prusti.SnapshotEncoder

open Prusti.Vir Prusti.Lib
open Prusti.Encoder (ofBigInt)
open Prusti.Snapshots (IntTy UintTy SnapshotField SnapshotVariant)

/-- What types are made by. -/
inductive Kind where
  | int (kind : IntTy)
  | uint (kind : UintTy)
  | char
  | bool
  | ref (mutable : Bool)
  | box
  | tuple
  | adt (name : String)
  | array (length : Nat)
  | slice
  /-- The unsupported types. -/
  | other (name : String)
deriving Repr, DecidableEq

/-- Types with type parameters. -/
abbrev Ty := Encoder.Generics.Ty Kind

/-- What a reference or a box refers to. -/
def pointee? : Ty → Option Ty
  | .node (.ref _) (ty :: _) | .node .box (ty :: _) => some ty
  | _ => none

/-- Remove any box or reference wrappers. -/
def stripRefsAndBoxes : Ty → Ty
  | .node (.ref _) (ty :: _) => stripRefsAndBoxes ty
  | .node .box (ty :: _) => stripRefsAndBoxes ty
  | ty => ty

structure FieldDef where
  ident : String
  ty : Ty
deriving Repr

/-- A variant with its sign-extended discriminant. -/
structure VariantDef where
  ident : String
  discriminant : Int
  fields : List FieldDef
deriving Repr

inductive AdtKind where
  | struct
  | enum
  | union
deriving Repr, DecidableEq

structure AdtDef where
  kind : AdtKind
  variants : List VariantDef
deriving Repr

/-- The type of a field, for the arguments of the definition. -/
def FieldDef.instantiate (field : FieldDef) (substs : List Ty) : Ty :=
  field.ty.subst fun param => substs[param.index]?.getD (.var param)

/-- What the snapshot of a type is. -/
inductive Category where
  | int
  | bool
  | unit
  | snapshot
deriving Repr, DecidableEq

/-- The category of a type that is no reference and no box. -/
def category (adtDef : String → AdtDef) : Ty → Category
  | .node (.int _) _ | .node (.uint _) _ | .node .char _ => .int
  | .node .bool _ => .bool
  | .node .tuple [] => .unit
  | .node (.adt name) _ =>
    match (adtDef name).variants with
    | [] => .unit
    | [variant] => if variant.fields.isEmpty then .unit else .snapshot
    | _ => .snapshot
  | _ => .snapshot

/-- The definitions of a program and the names of the predicates of its types.  Types with
the same name have snapshots of the same category, and a name is decoded to a type that it
is the name of. -/
structure TypeEnv where
  adtDef : String → AdtDef
  predicateName : Ty → String
  decodeTypePredicate : String → Option Ty
  category_eq : ∀ ty ty', predicateName ty = predicateName ty' →
    category adtDef ty = category adtDef ty'
  decodes : ∀ name ty, decodeTypePredicate name = some ty → predicateName ty = name

/-- Snapshots of types. -/
inductive Snapshot where
  /-- Corresponds directly to an existing Viper type. -/
  | primitive (typ : Typ)
  /-- Types with no content. -/
  | unit
  /-- Tuples and definitions. -/
  | complex (snapshot : Snapshots.ComplexSnapshot)
  | array (predicateName : String) (domain : Domain) (snapFunc sliceHelper : Function)
      (cons read : DomainFunc)
  | slice (predicateName : String) (domain : Domain)
      (snapFunc sliceCollectFunc sliceHelper : Function) (cons read len : DomainFunc)
  /-- Type parameters and unsupported types. -/
  | abstract (predicateName : String) (domain : Domain) (snapFunc : Function)
  /-- A type whose encoding is in progress. -/
  | lazy (typ : Typ)

namespace Snapshot

def getType : Snapshot → Typ
  | primitive typ | lazy typ => typ
  | unit => .domain "UnitDomain"
  | complex snapshot => .snapshot snapshot.predicateName
  | array predicateName _ _ _ _ _ | slice predicateName _ _ _ _ _ _ _
  | abstract predicateName _ _ => .snapshot predicateName

end Snapshot

/-- The snapshot of a type that cannot be encoded. -/
def encodeAbstract (predicateName : String) : Snapshot :=
  .abstract predicateName
    { name := Snapshots.domainName predicateName, functions := [], axioms := [] }
    { name := Snapshots.snapFuncName, formalArgs := [Snapshots.argRefLocal predicateName],
      returnType := .snapshot predicateName,
      pres := [Expr.mkPredicateAccessPredicate predicateName
        (Snapshots.argRefExpr predicateName) .read],
      posts := [], body := none }

/-- The encoder: the types that are currently encoded with the types of their snapshots, the
snapshots by the names of the predicates, and whether the unit domain was used. -/
structure Encoder where
  inProgress : HashMap String Typ
  encoded : HashMap String Snapshot
  unitUsed : Bool

namespace Encoder

def new : Encoder := ⟨HashMap.empty, HashMap.empty, false⟩

end Encoder

/-- A field that is to be encoded: where it is below `self`, its name and its type. -/
structure FieldPlan where
  base : Expr
  name : String
  ty : Ty

structure VariantPlan where
  discriminant : Int
  fields : List FieldPlan
  name : Option String

/-- What a snapshot is made of. -/
inductive Plan where
  | primitive (typ : Typ)
  | unit
  | complex (variants : List VariantPlan)
  | array (elem : Ty) (length : Nat)
  | slice (elem : Ty)
  | abstract

/-- A call that the encoding of a type makes. -/
inductive Component where
  | snapApp (expr : Expr)
  | encodeType (ty : Ty)

/-- What such a call has returned. -/
inductive Result where
  | expr (expr : Expr)
  | typ (typ : Typ)

section Plans

variable (env : TypeEnv)

def encodeRawRefField (viperFieldName : String) (ty : Ty) : Field :=
  ⟨viperFieldName, .typedRef (env.predicateName ty)⟩

/-- Remove the wrappers of a type and dereference an expression accordingly. -/
def stripRefsAndBoxesExpr : Ty → Expr → Ty × Expr
  | .node (.ref _) (ty :: _), expr =>
    stripRefsAndBoxesExpr ty (expr.mkField (encodeRawRefField env "val_ref" ty))
  | .node .box (ty :: _), expr =>
    stripRefsAndBoxesExpr ty (expr.mkField (encodeRawRefField env "val_ref" ty))
  | ty, expr => (ty, expr)

/-- The fields of a variant below a base. -/
def variantFields (base : Expr) (substs : List Ty) (variant : VariantDef) : List FieldPlan :=
  variant.fields.map fun field => ⟨base, "f$" ++ field.ident, field.instantiate substs⟩

/-- The plan for a type; `none` stands for the `unreachable!` cases of boxes and
references. -/
def plan (predicateName : String) (ty : Ty) : Option Plan :=
  let self := Snapshots.argRefExpr predicateName
  match ty with
  | .node (.ref _) (_ :: _) | .node .box (_ :: _) => none
  | .node (.int _) _ | .node (.uint _) _ | .node .char _ => some (.primitive .int)
  | .node .bool _ => some (.primitive .bool)
  | .node .tuple [] => some .unit
  | .node .tuple elems => some (.complex [⟨-1, elems.zipIdx.map fun item =>
    ⟨self, "tuple_" ++ toString item.2, item.1⟩, none⟩])
  | .node (.adt name) substs =>
    let adt := env.adtDef name
    if category env.adtDef ty = .unit then some .unit
    else match adt.kind with
    | .struct => some (.complex [⟨-1, adt.variants.flatMap (variantFields self substs), none⟩])
    | .enum => some (.complex (adt.variants.map fun variant =>
      -- the predicate of an enumeration with one variant is that of a structure
      if adt.variants.length = 1 then
        ⟨variant.discriminant, variantFields self substs variant, none⟩
      else
        ⟨variant.discriminant, variantFields
          (Snapshots.TypeEnv.variantBase predicateName variant.ident) substs variant,
          some variant.ident⟩))
    | .union => some .abstract
  | .node (.array length) [elem] => some (.array elem length)
  | .node .slice [elem] => some (.slice elem)
  | _ => some .abstract

/-- The type that the snapshot of a type is predicted to have. -/
def predictedType (predicateName : String) (ty : Ty) : Typ :=
  match category env.adtDef ty with
  | .int => .int
  | .bool => .bool
  | .unit => .domain "UnitDomain"
  | .snapshot => .snapshot predicateName

def FieldPlan.components (field : FieldPlan) : List Component :=
  [.snapApp (field.base.mkField (encodeRawRefField env field.name field.ty)), .encodeType field.ty]

def Plan.components : Plan → List Component
  | primitive _ | unit | abstract => []
  | complex variants => variants.flatMap fun variant => variant.fields.flatMap (·.components env)
  | array elem _ | slice elem => [.encodeType elem]

end Plans

/-- Only the bounds of an integer or character type are used of the type of a field. -/
def boundedTy : Ty → Snapshots.Ty
  | .node (.int kind) _ => .int kind
  | .node (.uint kind) _ => .uint kind
  | .node .char _ => .char
  | _ => .bool

/-- The fields of a variant, and the results that are left. -/
def assembleFields : List FieldPlan → List Result → List SnapshotField × List Result
  | field :: fields, .expr access :: .typ typ :: results =>
    let rest := assembleFields fields results
    (⟨field.name, access, boundedTy field.ty, typ⟩ :: rest.1, rest.2)
  | _, results => ([], results)

def assembleVariants : List VariantPlan → List Result → List SnapshotVariant
  | [], _ => []
  | variant :: variants, results =>
    let fields := assembleFields variant.fields results
    ⟨variant.discriminant, fields.1, variant.name⟩ :: assembleVariants variants fields.2

/-- The snapshot of an array. -/
def arraySnapshot (predicateName : String) (elemTyp : Typ) (length : Nat) : Snapshot :=
  let read := Snapshots.seqReadFunc predicateName elemTyp "arr"
  .array predicateName (Snapshots.arrayDomain predicateName elemTyp)
    (Snapshots.snapFunction predicateName
      [Snapshots.readEqLookup predicateName elemTyp "arr" (ofBigInt length)]
      (Snapshots.arraySnapBody predicateName elemTyp length))
    (Snapshots.encodeSliceHelper (.snapshot predicateName) elemTyp read (ofBigInt length))
    (Snapshots.seqConsFunc predicateName elemTyp) read

/-- The snapshot of a slice. -/
def sliceSnapshot (predicateName : String) (elemTyp : Typ) : Snapshot :=
  let read := Snapshots.seqReadFunc predicateName elemTyp "self"
  let len := Snapshots.sliceLenFunc predicateName
  let lenCall := Snapshots.sliceLenCall predicateName (Snapshots.argRefExpr predicateName)
  let snapLen := len.apply [Expr.ofLocal ⟨"__result", .snapshot predicateName⟩]
  .slice predicateName (Snapshots.sliceDomain predicateName elemTyp)
    (Snapshots.snapFunction predicateName
      [Snapshots.readEqLookup predicateName elemTyp "self" lenCall,
        .inhaleExhale (Expr.eqCmp lenCall snapLen) (Expr.ofBool true) Position.default]
      (Snapshots.sliceSnapBody predicateName elemTyp))
    (Snapshots.sliceCollectFunc predicateName elemTyp)
    (Snapshots.encodeSliceHelper (.snapshot predicateName) elemTyp read
      (len.apply [Expr.ofLocal ⟨"self", .snapshot predicateName⟩]))
    (Snapshots.seqConsFunc predicateName elemTyp) read len

/-- The snapshot that is made of the results of the calls; `none` stands for a panic. -/
def Plan.finish (predicateName : String) : Plan → List Result → Option Snapshot
  | primitive typ, _ => some (.primitive typ)
  | unit, _ => some .unit
  | complex variants, results =>
    (Snapshots.encodeComplex (assembleVariants variants results) predicateName).map .complex
  | array _ length, [.typ elemTyp] => some (arraySnapshot predicateName elemTyp length)
  | slice _, [.typ elemTyp] => some (sliceSnapshot predicateName elemTyp)
  | array _ _, _ | slice _, _ => none
  | abstract, _ => some (encodeAbstract predicateName)

/-- An encoding in progress: the calls that are left, the results of the others, and the
expression that a `snap_app` in progress is about. -/
structure Frame where
  ty : Ty
  predicateName : String
  snapshotType : Typ
  plan : Plan
  todo : List Component
  results : List Result
  current : Expr

/-- A call from outside. -/
inductive Call where
  | encodeType (ty : Ty)
  | snapApp (expr : Expr)
  | snapField (expr : Expr) (field : Field)
  | encodeConstructor (ty : Ty) (args : List Expr)

/-- Where the encoder is. -/
inductive Control where
  /-- No encoding is in progress; what the last call has returned, `none` for an error. -/
  | idle (returned : Option Result)
  /-- `encode_snapshot` is called. -/
  | enter (ty : Ty)
  /-- `encode_snapshot` has returned. -/
  | back (snapshot : Snapshot)
  /-- The topmost encoding in progress goes on. -/
  | next
  /-- An error is passed on. -/
  | giveUp
  | panic

/-- An encoder with the encodings in progress, the innermost one first, the last call from
outside and, if that is a `snap_app` in progress, the expression it is about. -/
structure Machine where
  encoder : Encoder
  stack : List Frame
  call : Option Call
  current : Expr
  control : Control

/-- What a `snap_app` does: it is done, or the snapshot of a type is needed. -/
inductive Target where
  | done (expr : Expr)
  | unit
  | snapshot (ty : Ty) (expr : Expr)

section Steps

variable (env : TypeEnv)

def snapAppTarget (expr : Expr) : Option Target :=
  match expr.getType with
  | some (.typedRef name) =>
    (env.decodeTypePredicate name).map fun ty =>
      let stripped := stripRefsAndBoxesExpr env ty expr
      match category env.adtDef stripped.1 with
      | .int => .done (stripped.2.mkField ⟨"val_int", .int⟩)
      | .bool => .done (stripped.2.mkField ⟨"val_bool", .bool⟩)
      | .unit => .unit
      | .snapshot => .snapshot stripped.1 stripped.2
  -- expressions that are patched already
  | some (.domain name) => if name = "UnitDomain" then some (.done expr) else none
  | some (.snapshot _) | some .bool | some .int => some (.done expr)
  | some (.seq _) | none => none

/-- Call the snap function on an expression. -/
def snapAppExpr (expr : Expr) (typ : Typ) : Expr :=
  Snapshots.snapAppExpr expr (expr.getType.getD typ) typ

namespace Machine

/-- A call from outside. -/
def start (m : Machine) (call : Call) : Machine :=
  let m := { m with call := some call }
  match call with
  | .encodeType ty | .encodeConstructor ty _ => { m with control := .enter ty }
  | .snapApp expr =>
    match snapAppTarget env expr with
    | none => { m with control := .idle none }
    | some (.done expr) => { m with control := .idle (some (.expr expr)) }
    | some .unit =>
      { m with
        encoder := { m.encoder with unitUsed := true }
        control := .idle (some (.expr Snapshots.snapUnit)) }
    | some (.snapshot ty expr) => { m with current := expr, control := .enter ty }
  | .snapField expr _ =>
    match expr.getType with
    | some (.snapshot name) | some (.typedRef name) =>
      match env.decodeTypePredicate name with
      | some ty => { m with control := .enter ty }
      | none => { m with control := .idle none }
    | _ => { m with control := .idle none }

/-- Start the encoding of a type, with type parameters resolved. -/
def enter (m : Machine) (ty : Ty) : Machine :=
  let name := env.predicateName ty
  match m.encoder.encoded.get? name, m.encoder.inProgress.get? name with
  | some snapshot, _ => { m with control := .back snapshot }
  | none, some typ => { m with control := .back (.lazy typ) }
  | none, none =>
    let typ := predictedType env name ty
    let encoder : Encoder :=
      { m.encoder with
        inProgress := m.encoder.inProgress.insert name typ
        unitUsed := m.encoder.unitUsed || category env.adtDef ty == .unit }
    match plan env name ty with
    | none => { m with encoder := encoder, control := .panic }
    | some plan =>
      { m with
        encoder := encoder
        stack := ⟨ty, name, typ, plan, plan.components env, [],
          Snapshots.argRefExpr name⟩ :: m.stack
        control := .next }

/-- The snapshot is complete. -/
def finish (m : Machine) (frame : Frame) (stack : List Frame) : Machine :=
  match frame.plan.finish frame.predicateName frame.results with
  | some snapshot =>
    if snapshot.getType = frame.snapshotType then
      { m with
        encoder :=
          { m.encoder with
            inProgress := m.encoder.inProgress.erase frame.predicateName
            encoded := m.encoder.encoded.insert frame.predicateName snapshot }
        stack := stack
        control := .back snapshot }
    else { m with control := .panic }
  | none => { m with control := .panic }

/-- The topmost encoding gets the result of the call it has made. -/
def resume (m : Machine) (frame : Frame) (stack : List Frame) (result : Result) : Machine :=
  { m with
    stack :=
      { frame with todo := frame.todo.tail, results := frame.results ++ [result] } :: stack
    control := .next }

/-- The topmost encoding makes its next call. -/
def next (m : Machine) (frame : Frame) (stack : List Frame) : Machine :=
  match frame.todo with
  | [] => m.finish frame stack
  | .encodeType ty :: _ => { m with control := .enter ty }
  | .snapApp expr :: _ =>
    match snapAppTarget env expr with
    | none => { m with control := .giveUp }
    | some (.done expr) => m.resume frame stack (.expr expr)
    | some .unit =>
      { m with encoder := { m.encoder with unitUsed := true } }.resume frame stack
        (.expr Snapshots.snapUnit)
    | some (.snapshot ty expr) =>
      { m with stack := { frame with current := expr } :: stack, control := .enter ty }

/-- What a call from outside makes of the snapshot of its type. -/
def deliver (m : Machine) (snapshot : Snapshot) : Control :=
  match m.call with
  | some (.encodeType _) => .idle (some (.typ snapshot.getType))
  | some (.snapApp _) => .idle (some (.expr (snapAppExpr m.current snapshot.getType)))
  | some (.snapField expr field) =>
    match snapshot with
    | .complex snapshot =>
      if field.name = "discriminant" then
        .idle (some (.expr (snapshot.discriminantFunc.apply [expr])))
      else match snapshot.variants with
      | [] => .panic
      | (_, funcs) :: _ =>
        .idle ((funcs.get? field.name).map fun func => .expr (func.apply [expr]))
    | _ => .idle none
  | some (.encodeConstructor _ args) =>
    match snapshot, args with
    | .complex snapshot, _ =>
      match snapshot.variants with
      | [(cons, _)] => .idle (some (.expr (cons.apply args)))
      | _ => .panic
    | .array _ _ _ _ cons _, [.seq _ _ _] | .slice _ _ _ _ _ cons _ _, [.seq _ _ _] =>
      .idle (some (.expr (cons.apply args)))
    | .array _ _ _ _ _ _, _ | .slice _ _ _ _ _ _ _ _, _ => .panic
    | _, _ => .idle none
  | none => .panic

/-- `encode_snapshot` has returned to the topmost encoding, or to the call from outside. -/
def back (m : Machine) (snapshot : Snapshot) : Machine :=
  match m.stack with
  | [] => { m with control := m.deliver snapshot }
  | frame :: stack =>
    match frame.todo with
    | .snapApp _ :: _ =>
      m.resume frame stack (.expr (snapAppExpr frame.current snapshot.getType))
    | _ => m.resume frame stack (.typ snapshot.getType)

/-- An error ends the topmost encoding. -/
def giveUp (m : Machine) : Machine :=
  match m.stack with
  | [] => { m with control := .idle none }
  | frame :: stack =>
    { m with
      encoder :=
        { m.encoder with inProgress := m.encoder.inProgress.erase frame.predicateName }
      stack := stack }

end Machine

/-- What drives the encoder: a call from outside, the encoder going on with the type
parameters as they are resolved, and an error of something else that it calls. -/
inductive Action where
  | call (call : Call)
  | proceed (resolveTyparam : Ty → Option Ty)
  | fail

/-- One step.  There is none if a type is never resolved. -/
def step (m : Machine) : Action → Option Machine
  | .call call =>
    match m.control with
    | .idle _ => some (m.start env call)
    | _ => none
  | .proceed resolveTyparam =>
    match m.control with
    | .enter ty => (resolveTyparam (stripRefsAndBoxes ty)).map (m.enter env)
    | .back snapshot => some (m.back snapshot)
    | .next =>
      match m.stack with
      | [] => none
      | frame :: stack => some (m.next env frame stack)
    | .giveUp => some m.giveUp
    | .idle _ | .panic => none
  | .fail =>
    match m.control with
    | .enter _ | .next => some { m with control := .giveUp }
    | _ => none

end Steps

end Prusti.SnapshotEncoder

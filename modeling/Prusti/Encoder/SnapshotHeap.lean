/-
The instances of types in the heap, when two of them are structurally equal,
and what the snap functions yield for them.
-/
import Prusti.Encoder.Snapshot

namespace Prusti.Snapshots

open Prusti.Vir

/-- What the instances of a type consist of. -/
inductive Shape where
  | int
  | bool
  | pointer (ty : Ty)
  | product (layout : List (String × Ty))
  | sum (variants : List VariantDef)
  | seq (elem : Ty) (length : Option Nat)

/-- The fields of a variant in the heap. -/
def VariantDef.layout (variant : VariantDef) : List (String × Ty) :=
  variant.fields.map fun field => ("f$" ++ field.ident, field.ty)

/-- An enumeration with one variant is a structure in the heap. -/
def TypeEnv.shape (env : TypeEnv) : Ty → Shape
  | .int _ | .uint _ | .char => .int
  | .bool => .bool
  | .ref _ ty | .box ty => .pointer ty
  | .tuple elems => .product (elems.zipIdx.map fun item =>
    ("tuple_" ++ toString item.2, item.1))
  | .adt name =>
    let adt := env.adtDef name
    if adt.isEnum && adt.variants.length != 1 then .sum adt.variants
    else .product (adt.variants.flatMap VariantDef.layout)
  | .array elem length => .seq elem (some length)
  | .slice elem => .seq elem none

/-- The finite instances of a type. -/
inductive HasType (env : TypeEnv) : Ty → HeapValue → Prop where
  | int {ty : Ty} {loc : Nat} {n : Int} (h : env.shape ty = .int) : HasType env ty (.int loc n)
  | bool {ty : Ty} {loc : Nat} {b : Bool} (h : env.shape ty = .bool) : HasType env ty (.bool loc b)
  | pointer {ty ty' : Ty} {loc : Nat} {x : HeapValue}
      (h : env.shape ty = .pointer ty') (hx : HasType env ty' x) :
      HasType env ty (.record loc [("val_ref", x)])
  | product {ty : Ty} {layout : List (String × Ty)} {loc : Nat}
      {fields : List (String × HeapValue)} (h : env.shape ty = .product layout)
      (hnames : fields.map (·.1) = layout.map (·.1))
      (hfields : ∀ (idx : Nat) name ty' x, layout[idx]? = some (name, ty') →
        fields[idx]? = some (name, x) → HasType env ty' x) :
      HasType env ty (.record loc fields)
  | sum {ty : Ty} {variants : List VariantDef} {variant : VariantDef} {loc : Nat}
      {fields : List (String × HeapValue)} (h : env.shape ty = .sum variants)
      (hvariant : variant ∈ variants)
      (hnames : fields.map (·.1) = variant.layout.map (·.1))
      (hfields : ∀ (idx : Nat) name ty' x,
        variant.layout[idx]? = some (name, ty') →
        fields[idx]? = some (name, x) → HasType env ty' x) :
      HasType env ty (.sum loc variant.discriminant variant.ident fields)
  | seq {ty elem : Ty} {length : Option Nat} {loc : Nat}
      {elems : List HeapValue} (h : env.shape ty = .seq elem length)
      (hlength : ∀ n ∈ length, elems.length = n)
      (helems : ∀ x ∈ elems, HasType env elem x) :
      HasType env ty (.list loc elems)

/-- Two instances of a type have the same variants and equal components,
wherever they are in the heap: references and boxes are looked through. -/
inductive StructEq (env : TypeEnv) : Ty → HeapValue → HeapValue → Prop where
  | int {ty : Ty} {loc loc' : Nat} {n : Int} (h : env.shape ty = .int) :
      StructEq env ty (.int loc n) (.int loc' n)
  | bool {ty : Ty} {loc loc' : Nat} {b : Bool} (h : env.shape ty = .bool) :
      StructEq env ty (.bool loc b) (.bool loc' b)
  | pointer {ty ty' : Ty} {loc loc' : Nat} {x y : HeapValue}
      (h : env.shape ty = .pointer ty') (hxy : StructEq env ty' x y) :
      StructEq env ty (.record loc [("val_ref", x)]) (.record loc' [("val_ref", y)])
  | product {ty : Ty} {layout : List (String × Ty)} {loc loc' : Nat}
      {fields fields' : List (String × HeapValue)}
      (h : env.shape ty = .product layout)
      (hfields : ∀ (idx : Nat) name ty' x y, layout[idx]? = some (name, ty') →
        fields[idx]? = some (name, x) → fields'[idx]? = some (name, y) →
        StructEq env ty' x y) :
      StructEq env ty (.record loc fields) (.record loc' fields')
  | sum {ty : Ty} {variants : List VariantDef} {variant : VariantDef}
      {loc loc' : Nat} {fields fields' : List (String × HeapValue)}
      (h : env.shape ty = .sum variants) (hvariant : variant ∈ variants)
      (hfields : ∀ (idx : Nat) name ty' x y,
        variant.layout[idx]? = some (name, ty') →
        fields[idx]? = some (name, x) → fields'[idx]? = some (name, y) →
        StructEq env ty' x y) :
      StructEq env ty (.sum loc variant.discriminant variant.ident fields)
        (.sum loc' variant.discriminant variant.ident fields')
  | seq {ty elem : Ty} {length : Option Nat} {loc loc' : Nat}
      {elems elems' : List HeapValue} (h : env.shape ty = .seq elem length)
      (hlength : elems.length = elems'.length)
      (helems : ∀ (idx : Nat) x y, elems[idx]? = some x →
        elems'[idx]? = some y → StructEq env elem x y) :
      StructEq env ty (.list loc elems) (.list loc' elems')

/-- The snap function of a snapshot. -/
def Snapshot.snapFunc? : Snapshot → Option Function
  | primitive _ | unit => none
  | complex snapshot => some snapshot.snapFunc
  | array _ snapFunc _ _ => some snapFunc
  | slice _ snapFunc _ _ _ _ => some snapFunc

/-- The function that collects the elements of a slice. -/
def Snapshot.sliceCollectFunc? : Snapshot → Option Function
  | slice _ _ sliceCollectFunc _ _ _ => some sliceCollectFunc
  | _ => none

section Calls

variable (I : Interp) (env : TypeEnv) (decodeTypePredicate : String → Option Ty)

/-- The value of a body for given arguments. -/
noncomputable def callBody (calls : I.Calls) (func : Function)
    (args : List (Value I.E)) : Option (Value I.E) :=
  func.body.bind fun body =>
    I.value calls (Interp.Env.bind [] func.formalArgs args) body

/-- The snapshot of an instance of a type, by the expression for it. -/
noncomputable def snapAppValue (calls : I.Calls) (ty : Ty) (x : HeapValue) : Option (Value I.E) :=
  I.value calls [("self", .ref x)] (env.snapApp ty (argRefExpr (env.predicateName ty)))

/-- The functions that have no body: the snapshot of an element, and the number
of the elements. -/
noncomputable def callAbstract (calls : I.Calls) (ty : Ty) (name : String)
    (args : List (Value I.E)) : Option (Value I.E) :=
  match env.shape ty, args with
  | .seq elem _, [.ref (.list _ elems), .int index] =>
    if name = "lookup_pure" ∧ 0 ≤ index then
      (elems[index.toNat]?).bind (snapAppValue I env calls elem)
    else none
  | .seq _ none, [.ref (.list _ elems)] =>
    if name = "Slice$len" then some (.int elems.length) else none
  | _, _ => none

/-- What the functions return when calls are nested at most so deep.  The
functions are overloaded: the type of the first argument tells them apart. -/
noncomputable def callFunction : Nat → I.Calls
  | 0, _, _, _ => none
  | fuel + 1, name, .typedRef predicateName :: _, args =>
    (decodeTypePredicate predicateName).bind fun ty =>
      if name = snapFuncName then
        ((env.encodeSnapshotInternal ty).bind Snapshot.snapFunc?).bind
          fun func => callBody I (callFunction fuel) func args
      else if name = sliceCollectName predicateName then
        ((env.encodeSnapshotInternal ty).bind Snapshot.sliceCollectFunc?).bind
          fun func => callBody I (callFunction fuel) func args
      else callAbstract I env (callFunction fuel) ty name args
  | _ + 1, _, _, _ => none

end Calls

/-- With calls that are nested deep enough there is this value. -/
def Settles {α : Type} (result : Nat → Option α) (value : α) : Prop :=
  ∃ depth, ∀ fuel, depth ≤ fuel → result fuel = some value

section Access

variable (env : TypeEnv) (decodeTypePredicate : String → Option Ty)

/-- Decode a type back into a snapshot. -/
def TypeEnv.decodeSnapshot (typ : Typ) : Option Snapshot :=
  match typ with
  | .snapshot name | .typedRef name =>
    (decodeTypePredicate name).bind fun ty =>
      env.encodeSnapshotInternal (stripRefsAndBoxes ty)
  | _ => none

/-- The name of a variant without the letters before it. -/
def stripEnum (name : String) : Option String :=
  match name.toList with
  | 'e' :: 'n' :: 'u' :: 'm' :: '_' :: rest => some (String.ofList rest)
  | _ => none

/-- Converts variant and field access on a snapshot to a domain function call;
`none` stands for the errors. -/
def TypeEnv.snapVariantField (expr : Expr) (variant field : Field) : Option Expr := do
  let variantName ← stripEnum variant.name
  let snapshot ← env.decodeSnapshot decodeTypePredicate (← expr.getType)
  match snapshot with
  | .complex snapshot => do
    let variantIdx ← snapshot.variantNames.get? variantName
    let funcs ← snapshot.variants[variantIdx]?
    let func ← funcs.2.get? field.name
    return func.apply [expr]
  | _ => none

/-- Converts field access on a snapshot to a domain function call. -/
def TypeEnv.snapField (expr : Expr) (field : Field) : Option Expr := do
  let snapshot ← env.decodeSnapshot decodeTypePredicate (← expr.getType)
  match snapshot with
  | .complex snapshot =>
    if field.name = "discriminant" then
      return snapshot.discriminantFunc.apply [expr]
    else do
      let funcs ← snapshot.variants[0]?
      let func ← funcs.2.get? field.name
      return func.apply [expr]
  | _ => none

end Access

end Prusti.Snapshots

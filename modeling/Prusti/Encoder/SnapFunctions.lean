/-
What the snap functions yield for the instances of a type: an element of the domain that
is made of the snapshots of the components.
-/
import Prusti.Encoder.SnapshotHeap
import Prusti.Encoder.SnapshotConsistency

namespace Prusti.Snapshots

open Prusti.Vir Prusti.Lib
open Prusti.Encoder (ofBigInt)

variable {expr : Expr} {ty' : Ty} {variants : List VariantDef} {variant : VariantDef} {idx : Nat}

section Settles

variable {α β : Type} {result result' : Nat → Option α} {value value' : α}

theorem Settles.unique (h : Settles result value) (h' : Settles result value') :
    value = value' := by
  obtain ⟨depth, hdepth⟩ := h
  obtain ⟨depth', hdepth'⟩ := h'
  have hvalue := hdepth (max depth depth') (Nat.le_max_left _ _)
  rw [hdepth' (max depth depth') (Nat.le_max_right _ _)] at hvalue
  exact (Option.some.inj hvalue).symm

theorem settles_of_forall (h : ∀ fuel, result fuel = some value) : Settles result value :=
  ⟨0, fun fuel _ => h fuel⟩

/-- A call needs one level more than its body. -/
theorem Settles.succ (h : Settles result' value)
    (hcall : ∀ fuel, result' fuel = some value → result (fuel + 1) = some value) :
    Settles result value := by
  obtain ⟨depth, hdepth⟩ := h
  refine ⟨depth + 1, fun fuel hfuel => ?_⟩
  obtain ⟨fuel, rfl⟩ : ∃ fuel', fuel = fuel' + 1 := ⟨fuel - 1, by omega⟩
  exact hcall fuel (hdepth fuel (by omega))

/-- Finitely many results settle together. -/
theorem settles_forall₂ {ι : Type} {results : ι → Nat → Option α} {items : List ι} {values : List α}
    (h : List.Forall₂ (fun item value => Settles (results item) value) items values) :
    ∃ depth, ∀ fuel, depth ≤ fuel →
      List.Forall₂ (fun item value => results item fuel = some value) items values := by
  induction h with
  | nil => exact ⟨0, fun _ _ => .nil⟩
  | cons hfirst _ ih =>
    obtain ⟨depth, hdepth⟩ := hfirst
    obtain ⟨depth', hdepth'⟩ := ih
    exact ⟨max depth depth', fun fuel hfuel =>
      .cons (hdepth fuel (by omega)) (hdepth' fuel (by omega))⟩

end Settles

section Expressions

variable {I : Interp} {env : TypeEnv} {calls : I.Calls} {vars vars' : I.Env}

attribute [local simp] Interp.value Interp.values

theorem values_map {ι : Type} {exprOf : ι → Expr} {items : List ι} {vals : List (Value I.E)}
    (h : List.Forall₂ (fun item val => I.value calls vars (exprOf item) = some val) items vals) :
    I.values calls vars (items.map exprOf) = some vals := by
  induction h with
  | nil => rfl
  | cons hfirst _ ih => rw [List.map_cons, Interp.values, hfirst, ih]

theorem value_mkField_congr {expr' : Expr} (h : I.value calls vars expr = I.value calls vars' expr')
    (fld : Field) :
    I.value calls vars (expr.mkField fld) = I.value calls vars' (expr'.mkField fld) := by
  simp only [Expr.mkField, Interp.value, h]

/-- The snapshot of an expression depends on its value only. -/
theorem value_snapApp_congr (ty : Ty) {expr' : Expr}
    (h : I.value calls vars expr = I.value calls vars' expr') :
    I.value calls vars (env.snapApp ty expr) = I.value calls vars' (env.snapApp ty expr') := by
  induction ty using stripRefsAndBoxes.induct generalizing expr expr' with
  | case1 _ ty ih | case2 ty ih => exact ih (value_mkField_congr h _)
  | case3 ty href hbox =>
    cases ty with
    | ref mutable ty => exact absurd rfl (href mutable ty)
    | box ty => exact absurd rfl (hbox ty)
    | int _ | uint _ | char | bool => exact value_mkField_congr h _
    | tuple _ | adt _ | array _ _ | slice _ =>
      simp only [TypeEnv.snapApp, TypeEnv.stripRefsAndBoxesExpr]
      split
      · simp [snapUnit, DomainFunc.apply]
      · simp only [snapAppExpr, Interp.value, Interp.values, h]

/-- The snapshot of an expression that refers to an instance. -/
theorem value_snapApp (ty : Ty) {x : HeapValue} (h : I.value calls vars expr = some (.ref x)) :
    I.value calls vars (env.snapApp ty expr) = snapAppValue I env calls ty x :=
  value_snapApp_congr ty h

end Expressions

section Shapes

variable {env : TypeEnv} {ty : Ty}

theorem shape_adt (env : TypeEnv) (name : String) :
    (∃ variants, env.shape (.adt name) = .sum variants) ∨
      ∃ layout, env.shape (.adt name) = .product layout := by
  simp only [TypeEnv.shape]
  split
  · exact .inl ⟨_, rfl⟩
  · exact .inr ⟨_, rfl⟩

theorem isInt_of_shape (h : env.shape ty = .int) : ty.isInt = true := by
  cases ty with
  | int _ | uint _ | char => rfl
  | adt name => rcases shape_adt env name with ⟨_, heq⟩ | ⟨_, heq⟩ <;>
      rw [heq] at h <;> cases h
  | _ => cases h

theorem eq_bool_of_shape (h : env.shape ty = .bool) : ty = .bool := by
  cases ty with
  | bool => rfl
  | adt name => rcases shape_adt env name with ⟨_, heq⟩ | ⟨_, heq⟩ <;>
      rw [heq] at h <;> cases h
  | _ => cases h

theorem eq_pointer_of_shape (h : env.shape ty = .pointer ty') :
    (∃ mutable, ty = .ref mutable ty') ∨ ty = .box ty' := by
  cases ty with
  | ref mutable _ =>
    cases h
    exact .inl ⟨mutable, rfl⟩
  | box _ =>
    cases h
    exact .inr rfl
  | adt name => rcases shape_adt env name with ⟨_, heq⟩ | ⟨_, heq⟩ <;>
      rw [heq] at h <;> cases h
  | _ => cases h

theorem eq_seq_of_shape {elem : Ty} {length : Option Nat} (h : env.shape ty = .seq elem length) :
    (∃ n, length = some n ∧ ty = .array elem n) ∨ (length = none ∧ ty = .slice elem) := by
  cases ty with
  | array elem' n =>
    cases h
    exact .inl ⟨n, rfl, rfl⟩
  | slice elem' =>
    cases h
    exact .inr ⟨rfl, rfl⟩
  | adt name => rcases shape_adt env name with ⟨_, heq⟩ | ⟨_, heq⟩ <;>
      rw [heq] at h <;> cases h
  | _ => cases h

/-- The fields that the snapshot of a record is made of. -/
def TypeEnv.layoutFields (env : TypeEnv) (base : Expr) (layout : List (String × Ty)) :
    List SnapshotField :=
  layout.map fun item => env.snapshotField base item.1 item.2

theorem layoutFields_layout (base : Expr) (variant : VariantDef) :
    env.layoutFields base variant.layout = env.variantFields base variant := by
  simp [TypeEnv.layoutFields, VariantDef.layout, TypeEnv.variantFields]

/-- The variants of a type whose instances are records. -/
theorem complexVariants_of_product (hwf : env.WellFormed) {layout : List (String × Ty)}
    (h : env.shape ty = .product layout) :
    (layout = [] ∧ env.isUnit ty = true) ∨
    (layout ≠ [] ∧ env.isUnit ty = false ∧
      ∃ discriminant, env.complexVariants ty =
        some [⟨discriminant, env.layoutFields (argRefExpr (env.predicateName ty)) layout,
          none⟩]) := by
  cases ty with
  | tuple elems =>
    cases h
    cases elems with
    | nil => exact .inl ⟨rfl, rfl⟩
    | cons first rest =>
      refine .inr ⟨by simp, rfl, -1, ?_⟩
      simp [TypeEnv.complexVariants, TypeEnv.isUnit, TypeEnv.tupleVariant,
        TypeEnv.layoutFields, Function.comp_def]
  | adt name =>
    simp only [TypeEnv.shape] at h
    split at h
    · cases h
    · next hsum =>
        cases h
        rcases hvariants : (env.adtDef name).variants with _ | ⟨variant, _ | ⟨second, rest⟩⟩
        · exact .inl ⟨by simp, by simp [TypeEnv.isUnit, hvariants]⟩
        · cases hfields : variant.fields with
          | nil =>
            exact .inl ⟨by simp [VariantDef.layout, hfields],
              by simp [TypeEnv.isUnit, hvariants, hfields]⟩
          | cons field fields =>
            have hunit : env.isUnit (.adt name) = false := by
              simp [TypeEnv.isUnit, hvariants, hfields]
            refine .inr ⟨by simp [VariantDef.layout, hfields], hunit, ?_⟩
            simp only [TypeEnv.complexVariants, hunit, Bool.false_eq_true, if_false,
              TypeEnv.adtVariants, hvariants, List.flatMap_cons, List.flatMap_nil,
              List.append_nil, layoutFields_layout]
            split
            · exact ⟨_, rfl⟩
            · exact ⟨_, rfl⟩
        · have hlength := hwf.struct_variants name
          rw [hvariants] at hlength hsum
          cases hkind : (env.adtDef name).isEnum with
          | true => simp [hkind] at hsum
          | false => simp [hkind] at hlength
  | _ => cases h

theorem length_ne_one_of_sum (h : env.shape ty = .sum variants) : variants.length ≠ 1 := by
  cases ty with
  | adt name =>
    simp only [TypeEnv.shape] at h
    split at h
    · next hsum =>
        cases h
        rw [Bool.and_eq_true, bne_iff_ne] at hsum
        exact hsum.2
    · cases h
  | _ => cases h

theorem VariantDef.name_ne_discriminant {item : String × Ty} (h : item ∈ variant.layout) :
    item.1 ≠ "discriminant" := by
  obtain ⟨field, -, rfl⟩ := List.mem_map.mp h
  intro heq
  have hhead := congrArg (fun name => name.toList.head?) heq
  rw [head?_append (show "f$".toList.head? = some 'f' from rfl)] at hhead
  exact absurd hhead (by decide)

/-- No component of a record has the name of the discriminant. -/
theorem name_ne_discriminant_of_product {layout : List (String × Ty)}
    (h : env.shape ty = .product layout) {item : String × Ty} (hitem : item ∈ layout) :
    item.1 ≠ "discriminant" := by
  cases ty with
  | tuple elems =>
    cases h
    obtain ⟨elem, -, rfl⟩ := List.mem_map.mp hitem
    intro heq
    have hhead := congrArg (fun name => name.toList.head?) heq
    rw [head?_append (show "tuple_".toList.head? = some 't' from rfl)] at hhead
    exact absurd hhead (by decide)
  | adt name =>
    simp only [TypeEnv.shape] at h
    split at h
    · cases h
    · cases h
      obtain ⟨variant, -, hitem⟩ := List.mem_flatMap.mp hitem
      exact VariantDef.name_ne_discriminant hitem
  | _ => cases h

/-- The variant of an enumeration that the snapshot is made of. -/
def TypeEnv.enumVariant (env : TypeEnv) (predicateName : String) (variant : VariantDef) :
    SnapshotVariant :=
  ⟨variant.discriminant,
    env.layoutFields (TypeEnv.variantBase predicateName variant.ident) variant.layout,
    some variant.ident⟩

theorem getElem?_enumVariant (env : TypeEnv) (h : variants[idx]? = some variant)
    (predicateName : String) :
    (variants.map (env.enumVariant predicateName))[idx]? =
      some (env.enumVariant predicateName variant) := by
  rw [List.getElem?_map, h]
  rfl

/-- The variants of a type whose instances are sums. -/
theorem complexVariants_of_sum (h : env.shape ty = .sum variants) (hne : variants ≠ []) :
    env.isUnit ty = false ∧ env.complexVariants ty =
      some (variants.map (env.enumVariant (env.predicateName ty))) ∧
      ∃ name, ty = .adt name ∧ variants = (env.adtDef name).variants := by
  cases ty with
  | adt name =>
    simp only [TypeEnv.shape] at h
    split at h
    · next hsum =>
        cases h
        rw [Bool.and_eq_true, bne_iff_ne] at hsum
        have hunit : env.isUnit (.adt name) = false := by
          match hvariants : (env.adtDef name).variants with
          | [] => exact absurd hvariants hne
          | [_] => simp [hvariants] at hsum
          | _ :: _ :: _ => simp [TypeEnv.isUnit, hvariants]
        refine ⟨hunit, ?_, name, rfl, rfl⟩
        simp only [TypeEnv.complexVariants, hunit, Bool.false_eq_true, if_false,
          TypeEnv.adtVariants, hsum.1, if_true, hsum.2, ← layoutFields_layout]
        rfl
    · cases h
  | _ => cases h

end Shapes

section Applications

variable {I : Interp} {env : TypeEnv} {calls : I.Calls} {ty : Ty} {loc : Nat}

theorem snapAppValue_int {n : Int} (h : env.shape ty = .int) :
    snapAppValue I env calls ty (.int loc n) = some (.int n) := by
  have hint := isInt_of_shape h
  cases ty with
  | int _ | uint _ | char =>
    simp [snapAppValue, TypeEnv.snapApp, TypeEnv.stripRefsAndBoxesExpr, argRefExpr,
      argRefLocal, Expr.ofLocal, Expr.mkField, Interp.value, Interp.fieldValue]
  | _ => cases hint

theorem snapAppValue_bool {b : Bool} (h : env.shape ty = .bool) :
    snapAppValue I env calls ty (.bool loc b) = some (.bool b) := by
  rw [eq_bool_of_shape h]
  simp [snapAppValue, TypeEnv.snapApp, TypeEnv.stripRefsAndBoxesExpr, argRefExpr,
    argRefLocal, Expr.ofLocal, Expr.mkField, Interp.value, Interp.fieldValue]

/-- References and boxes are looked through. -/
theorem snapAppValue_pointer (h : env.shape ty = .pointer ty') (x : HeapValue) :
    snapAppValue I env calls ty (.record loc [("val_ref", x)]) =
      snapAppValue I env calls ty' x := by
  rcases eq_pointer_of_shape h with ⟨mutable, rfl⟩ | rfl
  · exact value_snapApp ty' rfl
  · exact value_snapApp ty' rfl

theorem snapAppValue_unit (h : env.isUnit ty = true) (x : HeapValue) :
    snapAppValue I env calls ty x = some (I.func unitFunc []) := by
  cases ty with
  | tuple _ | adt _ =>
    simp only [snapAppValue, TypeEnv.snapApp, TypeEnv.stripRefsAndBoxesExpr, h, if_true]
    exact Interp.value_apply rfl
  | _ => cases h

/-- The snap function is called on instances that consist of components. -/
theorem snapAppValue_call (hshape : (∃ layout, env.shape ty = .product layout) ∨
      (∃ variants, env.shape ty = .sum variants) ∨
      ∃ elem length, env.shape ty = .seq elem length)
    (hunit : env.isUnit ty = false) (x : HeapValue) :
    snapAppValue I env calls ty x =
      calls snapFuncName [.typedRef (env.predicateName ty)] [.ref x] := by
  cases ty with
  | tuple _ | adt _ | array _ _ | slice _ =>
    simp only [snapAppValue, TypeEnv.snapApp, TypeEnv.stripRefsAndBoxesExpr, hunit,
      Bool.false_eq_true, if_false, snapAppExpr, Interp.value, Interp.values, argRefExpr,
      argRefLocal, Expr.ofLocal]
    simp
  | _ => simp [TypeEnv.shape] at hshape

end Applications

section Bodies

variable {I : Interp} {env : TypeEnv} {calls : I.Calls} {vars : I.Env}
  {predicateName : String} {layout : List (String × Ty)}
  {fields : List (String × HeapValue)} {vals : List (Value I.E)}

/-- The components of a record are found by their names. -/
theorem lookup_fields (hnames : fields.map (·.1) = layout.map (·.1))
    (hnodup : (layout.map (·.1)).Nodup) {item : (String × Ty) × (String × HeapValue)}
    (h : item ∈ layout.zip fields) : fields.lookup item.1.1 = some item.2.2 := by
  induction layout generalizing fields with
  | nil => cases h
  | cons entry layout ih =>
    cases fields with
    | nil => cases h
    | cons field fields =>
      simp only [List.map_cons, List.cons.injEq] at hnames
      rw [List.map_cons, List.nodup_cons] at hnodup
      rw [List.zip_cons_cons, List.mem_cons] at h
      rw [List.lookup_cons]
      rcases h with rfl | h
      · simp [hnames.1]
      · have hne : item.1.1 ≠ field.1 := fun heq =>
          hnodup.1 (hnames.1 ▸ heq ▸ List.mem_map_of_mem (List.of_mem_zip h).1)
        rw [beq_false_of_ne hne]
        exact ih hnames.2 hnodup.2 h

/-- The constructor call that reads a record. -/
theorem value_variantSnapBody {base : Expr} (loc idx : Nat)
    (hbase : I.value calls vars base = some (.ref (.record loc fields)))
    (hnames : fields.map (·.1) = layout.map (·.1)) (hnodup : (layout.map (·.1)).Nodup)
    (hvals : List.Forall₂ (fun item val =>
      snapAppValue I env calls item.1.2 item.2.2 = some val) (layout.zip fields) vals)
    (discriminant : Int) (name : Option String) :
    I.value calls vars (variantSnapBody predicateName
      (⟨discriminant, env.layoutFields base layout, name⟩, idx)) =
        some (I.func (constructorFunc predicateName idx (env.layoutFields base layout)) vals) := by
  have hlayout : (layout.zip fields).map Prod.fst = layout :=
    List.map_fst_zip (by simpa using (congrArg List.length hnames).ge)
  have haccess : (env.layoutFields base layout).map (·.access) =
      (layout.zip fields).map fun item => env.snapApp item.1.2
        (base.mkField (env.encodeRawRefField item.1.1 item.1.2)) := by
    conv_lhs => rw [← hlayout]
    simp [TypeEnv.layoutFields, TypeEnv.snapshotField]
  refine Interp.value_apply ?_
  rw [haccess]
  refine values_map (forall₂_imp_mem hvals fun item hitem val _ hval => ?_)
  rw [value_snapApp item.1.2 (x := item.2.2), hval]
  simp [Expr.mkField, Interp.value, hbase, Interp.fieldValue, TypeEnv.encodeRawRefField,
    lookup_fields hnames hnodup hitem]

section Chain

variable {discriminant : Int} {body : Expr} {rest : List (SnapshotVariant × Nat)}

/-- One step of the conditional over the discriminants. -/
def condDiscriminant (predicateName : String) (body : Expr) (item : SnapshotVariant × Nat) : Expr :=
  .cond (Expr.eqCmp ((argRefExpr predicateName).mkField ⟨"discriminant", .int⟩)
    (ofBigInt item.1.discriminant)) (variantSnapBody predicateName item) body
    Position.default

variable (hdiscriminant : I.value calls vars
  ((argRefExpr predicateName).mkField ⟨"discriminant", .int⟩) = some (.int discriminant))

include hdiscriminant in
theorem value_condDiscriminant (item : SnapshotVariant × Nat) :
    I.value calls vars (condDiscriminant predicateName body item) =
      if item.1.discriminant = discriminant then
        I.value calls vars (variantSnapBody predicateName item)
      else I.value calls vars body := by
  have hguard : I.value calls vars (Expr.eqCmp
      ((argRefExpr predicateName).mkField ⟨"discriminant", .int⟩)
      (ofBigInt item.1.discriminant)) =
        some (.bool (decide (item.1.discriminant = discriminant))) := by
    rw [Interp.value_eqCmp hdiscriminant (Interp.value_ofBigInt _)]
    simp [Interp.binOpValue, eq_comm]
  rw [condDiscriminant, Interp.value, hguard]
  split <;> simp_all

include hdiscriminant in
theorem value_chain_of_ne (h : ∀ item ∈ rest, item.1.discriminant ≠ discriminant) :
    I.value calls vars (rest.foldl (condDiscriminant predicateName) body) =
      I.value calls vars body := by
  induction rest generalizing body with
  | nil => rfl
  | cons item rest ih =>
    rw [List.forall_mem_cons] at h
    rw [List.foldl_cons, ih h.2, value_condDiscriminant hdiscriminant, if_neg h.1]

include hdiscriminant in
theorem value_chain_of_mem {item : SnapshotVariant × Nat} (hmem : item ∈ rest)
    (h : item.1.discriminant = discriminant) (hnodup : (rest.map (·.1.discriminant)).Nodup) :
    I.value calls vars (rest.foldl (condDiscriminant predicateName) body) =
      I.value calls vars (variantSnapBody predicateName item) := by
  induction rest generalizing body with
  | nil => cases hmem
  | cons first rest ih =>
    rw [List.map_cons, List.nodup_cons] at hnodup
    rw [List.foldl_cons]
    rcases List.mem_cons.mp hmem with rfl | hmem
    · rw [value_chain_of_ne hdiscriminant, value_condDiscriminant hdiscriminant, if_pos h]
      intro item' hitem' heq
      exact hnodup.1 (List.mem_map.mpr ⟨item', hitem', heq.trans h.symm⟩)
    · exact ih hmem hnodup.2

/-- The body selects the variant with the discriminant. -/
theorem exists_complexSnapBody {variants : List SnapshotVariant} {variant : SnapshotVariant}
    (hget : variants[idx]? = some variant) (hnodup : (variants.map (·.discriminant)).Nodup)
    (predicateName : String) :
    ∃ body, complexSnapBody predicateName variants = some body ∧
      ∀ (calls : I.Calls) (vars : I.Env), I.value calls vars
          ((argRefExpr predicateName).mkField ⟨"discriminant", .int⟩) =
            some (.int variant.discriminant) →
        I.value calls vars body =
          I.value calls vars (variantSnapBody predicateName (variant, idx)) := by
  have hmem : (variant, idx) ∈ variants.zipIdx := List.mk_mem_zipIdx_iff_getElem?.mpr hget
  have hmap : variants.zipIdx.map (·.1.discriminant) = variants.map (·.discriminant) := by
    exact List.ext_getElem (by simp) (by simp)
  rw [← hmap] at hnodup
  match hitems : variants.zipIdx with
  | [] => simp [hitems] at hmem
  | first :: rest =>
    rw [hitems] at hmem hnodup
    refine ⟨rest.foldl (condDiscriminant predicateName)
      (variantSnapBody predicateName first), by simp only [complexSnapBody, hitems]; rfl,
      fun calls vars hdiscriminant => ?_⟩
    rw [List.map_cons, List.nodup_cons] at hnodup
    rcases List.mem_cons.mp hmem with rfl | hmem
    · refine value_chain_of_ne hdiscriminant fun item hitem heq => ?_
      exact hnodup.1 (List.mem_map.mpr ⟨item, hitem, heq⟩)
    · exact value_chain_of_mem hdiscriminant hmem rfl hnodup.2

end Chain

end Bodies

/-- A type has the snapshot of another one, and so have the elements of sequences. -/
structure SameSnapshot (env : TypeEnv) (ty ty' : Ty) : Prop where
  internal : env.encodeSnapshotInternal ty' = env.encodeSnapshotInternal ty
  elem : ∀ elem length, env.shape ty = .seq elem length →
    ∃ elem', env.shape ty' = .seq elem' length ∧
      env.snapApp elem' (argRefExpr (env.predicateName elem')) =
        env.snapApp elem (argRefExpr (env.predicateName elem))

theorem SameSnapshot.refl (env : TypeEnv) (ty : Ty) : SameSnapshot env ty ty where
  internal := rfl
  elem := fun elem _ h => ⟨elem, h, rfl⟩

/-- Under the name of a predicate the table of types has a type with the same snapshot.
The names do not tell apart types that differ in the mutability of references. -/
def Decodes (env : TypeEnv) (types : Set Ty) (decodeTypePredicate : String → Option Ty) : Prop :=
  ∀ ty ∈ types, ∃ ty', decodeTypePredicate (env.predicateName ty) = some ty' ∧
    SameSnapshot env ty ty'

/-- What the language ensures of the variants of an enumeration. -/
structure TypeEnv.DistinctVariants (env : TypeEnv) : Prop where
  nodup_discriminants : ∀ name, ((env.adtDef name).variants.map (·.discriminant)).Nodup
  nodup_idents : ∀ name, ((env.adtDef name).variants.map (·.ident)).Nodup

section Calls

variable (I : Interp) (env : TypeEnv) (decodeTypePredicate : String → Option Ty)

/-- The snapshot of an instance, for calls that are nested deep enough. -/
def IsSnapshot (ty : Ty) (x : HeapValue) (val : Value I.E) : Prop :=
  Settles (fun fuel =>
    snapAppValue I env (callFunction I env decodeTypePredicate fuel) ty x) val

/-- The snapshots of the components of a record. -/
def ComponentSnapshots (layout : List (String × Ty)) (fields : List (String × HeapValue))
    (vals : List (Value I.E)) : Prop :=
  List.Forall₂ (fun item val => IsSnapshot I env decodeTypePredicate item.1.2 item.2.2 val)
    (layout.zip fields) vals

/-- What a body yields for an instance, for calls that are nested deep enough. -/
def BodyYields (body : Expr) (x : HeapValue) (val : Value I.E) : Prop :=
  Settles (fun fuel =>
    I.value (callFunction I env decodeTypePredicate fuel) [("self", .ref x)] body) val

end Calls

section Yields

variable {I : Interp} {env : TypeEnv} {types : Set Ty}
  {decodeTypePredicate : String → Option Ty} {ty : Ty} {x : HeapValue} {loc : Nat}
  {layout : List (String × Ty)} {fields : List (String × HeapValue)}
  {vals : List (Value I.E)} {val : Value I.E}

theorem isSnapshot_pointer_iff (h : env.shape ty = .pointer ty') :
    IsSnapshot I env decodeTypePredicate ty (.record loc [("val_ref", x)]) val ↔
      IsSnapshot I env decodeTypePredicate ty' x val := by
  simp only [IsSnapshot, snapAppValue_pointer h]

/-- A call of the snap function evaluates its body. -/
theorem callFunction_snap (hdecodes : Decodes env types decodeTypePredicate)
    (hty : ty ∈ types) {snapshot : Snapshot} {func : Function}
    (hsnapshot : env.encodeSnapshotInternal ty = some snapshot)
    (hfunc : snapshot.snapFunc? = some func) (fuel : Nat) (args : List (Value I.E)) :
    callFunction I env decodeTypePredicate (fuel + 1) snapFuncName
        [.typedRef (env.predicateName ty)] args =
      callBody I (callFunction I env decodeTypePredicate fuel) func args := by
  obtain ⟨ty', hdecode, hsame⟩ := hdecodes ty hty
  have hinternal := hsame.internal.trans hsnapshot
  simp [callFunction, hdecode, hinternal, hfunc]

/-- The snapshot of an instance that consists of components is what the body yields. -/
theorem isSnapshot_of_bodyYields (hdecodes : Decodes env types decodeTypePredicate)
    (hty : ty ∈ types) (hshape : (∃ layout, env.shape ty = .product layout) ∨
      (∃ variants, env.shape ty = .sum variants) ∨
      ∃ elem length, env.shape ty = .seq elem length)
    (hunit : env.isUnit ty = false) {snapshot : Snapshot} {posts : List Expr} {body : Expr}
    (hsnapshot : env.encodeSnapshotInternal ty = some snapshot)
    (hfunc : snapshot.snapFunc? = some (snapFunction (env.predicateName ty) posts body))
    (h : BodyYields I env decodeTypePredicate body x val) :
    IsSnapshot I env decodeTypePredicate ty x val := by
  refine h.succ fun fuel hvalue => ?_
  rw [snapAppValue_call hshape hunit, callFunction_snap hdecodes hty hsnapshot hfunc]
  exact hvalue

theorem exists_snapFunc_of_complexVariants {variants : List SnapshotVariant} {body : Expr}
    (hvariants : env.complexVariants ty = some variants)
    (hbody : complexSnapBody (env.predicateName ty) variants = some body) :
    ∃ snapshot, env.encodeSnapshotInternal ty = some snapshot ∧
      snapshot.snapFunc? = some (snapFunction (env.predicateName ty) [] body) := by
  obtain ⟨complex, hcomplex, hfunc⟩ : ∃ complex,
      encodeComplex variants (env.predicateName ty) = some complex ∧
        complex.snapFunc = snapFunction (env.predicateName ty) [] body :=
    ⟨_, Option.bind_eq_some_iff.mpr ⟨body, hbody, rfl⟩, rfl⟩
  refine ⟨.complex complex, ?_, congrArg some hfunc⟩
  cases ty with
  | tuple _ | adt _ =>
    simp only [TypeEnv.encodeSnapshotInternal, hvariants, hcomplex, Option.map_some]
  | _ => simp [TypeEnv.complexVariants, TypeEnv.isUnit] at hvariants

/-- The snapshot of a record. -/
theorem isSnapshot_record (hwf : env.WellFormed)
    (hdecodes : Decodes env types decodeTypePredicate) (hty : ty ∈ types)
    (hshape : env.shape ty = .product layout) (hne : layout ≠ [])
    (hnames : fields.map (·.1) = layout.map (·.1))
    (hvals : ComponentSnapshots I env decodeTypePredicate layout fields vals) :
    IsSnapshot I env decodeTypePredicate ty (.record loc fields)
      (I.func (constructorFunc (env.predicateName ty) 0
        (env.layoutFields (argRefExpr (env.predicateName ty)) layout)) vals) := by
  obtain ⟨hnil, -⟩ | ⟨-, hunit, discriminant, hvariants⟩ := complexVariants_of_product hwf hshape
  · exact absurd hnil hne
  have hnodup : (layout.map (·.1)).Nodup := by
    have := (variantsOf_complexVariants hwf hvariants).nodup _ (List.mem_singleton_self _)
    simpa [TypeEnv.layoutFields, TypeEnv.snapshotField, Function.comp_def] using this
  obtain ⟨snapshot, hsnapshot, hfunc⟩ := exists_snapFunc_of_complexVariants hvariants rfl
  refine isSnapshot_of_bodyYields hdecodes hty (.inl ⟨layout, hshape⟩) hunit hsnapshot hfunc ?_
  obtain ⟨depth, hdepth⟩ := settles_forall₂ hvals
  refine ⟨depth, fun fuel hfuel => ?_⟩
  exact value_variantSnapBody loc 0 rfl hnames hnodup (hdepth fuel hfuel) discriminant none

/-- The snapshot of an instance of an enumeration. -/
theorem isSnapshot_sum (hwf : env.WellFormed) (hdistinct : env.DistinctVariants)
    (hdecodes : Decodes env types decodeTypePredicate) (hty : ty ∈ types)
    (hshape : env.shape ty = .sum variants) (hget : variants[idx]? = some variant)
    (hnames : fields.map (·.1) = variant.layout.map (·.1))
    (hvals : ComponentSnapshots I env decodeTypePredicate variant.layout fields vals) :
    IsSnapshot I env decodeTypePredicate ty (.sum loc variant.discriminant variant.ident fields)
      (I.func (constructorFunc (env.predicateName ty) idx
        (env.enumVariant (env.predicateName ty) variant).fields) vals) := by
  have hmem := List.mem_of_getElem? hget
  obtain ⟨hunit, hvariants, name, -, hdef⟩ :=
    complexVariants_of_sum hshape (List.ne_nil_of_mem hmem)
  have hget' := getElem?_enumVariant env hget (env.predicateName ty)
  have hnodup : (variant.layout.map (·.1)).Nodup := by
    have := (variantsOf_complexVariants hwf hvariants).nodup _ (List.mem_of_getElem? hget')
    simpa [TypeEnv.enumVariant, TypeEnv.layoutFields, TypeEnv.snapshotField,
      Function.comp_def] using this
  obtain ⟨body, hbody, hselected⟩ := exists_complexSnapBody hget' (by
    simpa [TypeEnv.enumVariant, Function.comp_def, hdef] using
      hdistinct.nodup_discriminants name)
    (env.predicateName ty)
  obtain ⟨snapshot, hsnapshot, hfunc⟩ := exists_snapFunc_of_complexVariants hvariants hbody
  refine isSnapshot_of_bodyYields hdecodes hty (.inr (.inl ⟨variants, hshape⟩)) hunit
    hsnapshot hfunc ?_
  obtain ⟨depth, hdepth⟩ := settles_forall₂ hvals
  refine ⟨depth, fun fuel hfuel => (hselected _ _ ?_).trans ?_⟩
  · simp [TypeEnv.enumVariant, argRefExpr, argRefLocal, Expr.ofLocal, Expr.mkField,
      Interp.value, Interp.fieldValue]
  · refine value_variantSnapBody loc idx ?_ hnames hnodup (hdepth fuel hfuel)
      variant.discriminant (some variant.ident)
    simp [TypeEnv.variantBase, argRefExpr, argRefLocal, Expr.ofLocal, Interp.value,
      Interp.variantValue]

section Sequences

variable {elem : Ty} {elems : List HeapValue} {length : Option Nat}

theorem sliceCollectName_ne (predicateName : String) :
    sliceCollectName predicateName ≠ snapFuncName ∧
      "lookup_pure" ≠ sliceCollectName predicateName ∧
      "Slice$len" ≠ sliceCollectName predicateName := by
  have htake : (sliceCollectName predicateName).toList.take 2 = ['s', 'l'] := by
    simp [sliceCollectName]
  refine ⟨fun heq => ?_, fun heq => ?_, fun heq => ?_⟩
  · rw [heq] at htake
    exact absurd htake (by decide)
  · rw [← heq] at htake
    exact absurd htake (by decide)
  · rw [← heq] at htake
    exact absurd htake (by decide)

/-- What is looked up in a sequence is the snapshot of the element. -/
theorem callFunction_lookupPure (hdecodes : Decodes env types decodeTypePredicate)
    (hty : ty ∈ types) (hshape : env.shape ty = .seq elem length) (loc : Nat)
    (elems : List HeapValue) (fuel index : Nat) :
    callFunction I env decodeTypePredicate (fuel + 1) "lookup_pure"
        [.typedRef (env.predicateName ty), .int] [.ref (.list loc elems), .int index] =
      elems[index]?.bind
        (snapAppValue I env (callFunction I env decodeTypePredicate fuel) elem) := by
  obtain ⟨ty', hdecode, hsame⟩ := hdecodes ty hty
  obtain ⟨elem', hshape', helem⟩ := hsame.elem elem length hshape
  have hne : "lookup_pure" ≠ snapFuncName := by decide
  have helem' : snapAppValue I env (callFunction I env decodeTypePredicate fuel) elem' =
      snapAppValue I env (callFunction I env decodeTypePredicate fuel) elem := by
    funext x
    rw [snapAppValue, snapAppValue, helem]
  simp [callFunction, hdecode, hne, (sliceCollectName_ne _).2.1, callAbstract, hshape', helem']

theorem callFunction_sliceLen (hdecodes : Decodes env types decodeTypePredicate)
    (hty : ty ∈ types) (hshape : env.shape ty = .seq elem none) (fuel : Nat) :
    callFunction I env decodeTypePredicate (fuel + 1) "Slice$len"
        [.typedRef (env.predicateName ty)] [.ref (.list loc elems)] =
      some (.int elems.length) := by
  obtain ⟨ty', hdecode, hsame⟩ := hdecodes ty hty
  obtain ⟨elem', hshape', -⟩ := hsame.elem elem none hshape
  have hne : "Slice$len" ≠ snapFuncName := by decide
  simp [callFunction, hdecode, hne, (sliceCollectName_ne _).2.2, callAbstract, hshape']

theorem arraySnapBody_eq (predicateName : String) (elemTyp : Typ) (n : Nat) :
    arraySnapBody predicateName elemTyp n = (seqConsFunc predicateName elemTyp).apply
        [.seq (.seq elemTyp) ((List.range n).map fun idx : Nat =>
          lookupPureCall predicateName elemTyp (argRefExpr predicateName) (ofBigInt idx))
          Position.default] := by
  have hrange : (do let idx ← List.range n; pure (idx : Int)) =
      (List.range n).map fun idx : Nat => (idx : Int) :=
    bind_pure_comp _ _
  rw [arraySnapBody, hrange, List.map_map]
  rfl

/-- The snapshot of an array. -/
theorem isSnapshot_array (hdecodes : Decodes env types decodeTypePredicate) {n : Nat}
    (hty : .array elem n ∈ types) (hlength : elems.length = n)
    (hvals : List.Forall₂ (IsSnapshot I env decodeTypePredicate elem) elems vals) :
    IsSnapshot I env decodeTypePredicate (.array elem n) (.list loc elems)
      (I.func (seqConsFunc (env.predicateName (.array elem n)) (env.encodeType elem))
        [.seq vals]) := by
  refine isSnapshot_of_bodyYields hdecodes hty (.inr (.inr ⟨elem, some n, rfl⟩)) rfl rfl rfl ?_
  obtain ⟨depth, hdepth⟩ := settles_forall₂ hvals
  refine ⟨depth + 1, fun fuel hfuel => ?_⟩
  obtain ⟨fuel, rfl⟩ : ∃ fuel', fuel = fuel' + 1 := ⟨fuel - 1, by omega⟩
  rw [arraySnapBody_eq]
  refine Interp.value_apply (Interp.values_singleton ?_)
  rw [Interp.value]
  refine Option.map_eq_some_iff.mpr ⟨vals, values_map ?_, rfl⟩
  -- the elements are looked up one after the other
  rw [List.forall₂_iff_get]
  refine ⟨by rw [List.length_range, ← hvals.length_eq, hlength], fun idx hidx hidx' => ?_⟩
  rw [List.length_range, ← hlength] at hidx
  have hval := (List.forall₂_iff_get.mp (hdepth fuel (by omega))).2 idx hidx hidx'
  have hlookup := callFunction_lookupPure (I := I) hdecodes hty rfl loc elems fuel idx
  rw [List.getElem?_eq_getElem hidx, Option.bind_some] at hlookup
  simpa [lookupPureCall, argRefExpr, argRefLocal, Expr.ofLocal, Interp.value, Interp.values,
    hlookup] using hval

/-- A call of the function that collects the elements of a slice evaluates its body. -/
theorem callFunction_sliceCollect (hdecodes : Decodes env types decodeTypePredicate)
    (hty : .slice elem ∈ types) (fuel : Nat) (args : List (Value I.E)) :
    callFunction I env decodeTypePredicate (fuel + 1)
        (sliceCollectName (env.predicateName (.slice elem)))
        [.typedRef (env.predicateName (.slice elem)), .int] args =
      callBody I (callFunction I env decodeTypePredicate fuel)
        (sliceCollectFunc (env.predicateName (.slice elem)) (env.encodeType elem)) args := by
  obtain ⟨ty', hdecode, hsame⟩ := hdecodes _ hty
  obtain ⟨snapshot, hsnapshot, hcollect⟩ : ∃ snapshot,
      env.encodeSnapshotInternal (.slice elem) = some snapshot ∧
        snapshot.sliceCollectFunc? = some (sliceCollectFunc
          (env.predicateName (.slice elem)) (env.encodeType elem)) := ⟨_, rfl, rfl⟩
  have hinternal := hsame.internal.trans hsnapshot
  simp [callFunction, hdecode, (sliceCollectName_ne _).1, hinternal, hcollect]

/-- One call of the function that collects the elements of a slice. -/
theorem callBody_sliceCollect {calls : I.Calls} {predicateName : String} {elemTyp : Typ}
    {len start : Int}
    (hlen : calls "Slice$len" [.typedRef predicateName] [.ref x] = some (.int len)) :
    callBody I calls (sliceCollectFunc predicateName elemTyp) [.ref x, .int start] =
      if len ≤ start then some (.seq [])
      else (calls "lookup_pure" [.typedRef predicateName, .int] [.ref x, .int start]).bind
        fun first => (calls (sliceCollectName predicateName)
          [.typedRef predicateName, .int] [.ref x, .int (start + 1)]).bind fun rest =>
            I.containerOpValue elemTyp .seqConcat (.seq [first]) rest := by
  let vars : I.Env := [("self", .ref x), ("start", .int start)]
  have hself : I.value calls vars (argRefExpr predicateName) = some (.ref x) := rfl
  have hstart : I.value calls vars (Expr.ofLocal ⟨"start", .int⟩) = some (.int start) := rfl
  have hnext : I.value calls vars (Expr.mkBinOp .add (Expr.ofLocal ⟨"start", .int⟩)
      (Expr.ofInt 1)) = some (.int (start + 1)) := rfl
  have hlenCall : I.value calls vars (sliceLenCall predicateName (argRefExpr predicateName)) =
      some (.int len) := by
    rw [sliceLenCall, Interp.value, Interp.values_singleton hself]
    exact hlen
  have hguard : I.value calls vars (Expr.mkBinOp .geCmp (Expr.ofLocal ⟨"start", .int⟩)
      (sliceLenCall predicateName (argRefExpr predicateName))) =
        some (.bool (decide (len ≤ start))) := by
    rw [Expr.mkBinOp, Interp.value, hstart, hlenCall]
    rfl
  change I.value calls vars (.cond (Expr.mkBinOp .geCmp (Expr.ofLocal ⟨"start", .int⟩)
    (sliceLenCall predicateName (argRefExpr predicateName))) _ _ Position.default) = _
  rw [Interp.value, hguard]
  by_cases hle : len ≤ start
  · simp [hle, Interp.value, Interp.values]
  · simp only [hle, decide_false, if_false]
    rw [Interp.value, Interp.value, Interp.values, lookupPureCall, Interp.value,
      sliceCollectCall, Interp.value]
    simp only [Interp.values, hself, hstart, hnext, List.map_cons, List.map_nil]
    cases calls "lookup_pure" [.typedRef predicateName, .int] [.ref x, .int start] with
    | none => rfl
    | some first =>
      cases calls (sliceCollectName predicateName) [.typedRef predicateName, .int]
          [.ref x, .int (start + 1)] with
      | none => rfl
      | some rest => rfl

/-- The elements of a slice are collected from an index on. -/
theorem sliceCollect_eq (hdecodes : Decodes env types decodeTypePredicate)
    (hty : .slice elem ∈ types) {depth : Nat}
    (hvals : ∀ fuel, depth ≤ fuel → List.Forall₂ (fun x val =>
      snapAppValue I env (callFunction I env decodeTypePredicate fuel) elem x = some val)
      elems vals)
    (loc remaining start fuel : Nat) (hstart : start + remaining = elems.length)
    (hfuel : depth + remaining + 2 ≤ fuel) :
    callFunction I env decodeTypePredicate fuel (sliceCollectName (env.predicateName (.slice elem)))
        [.typedRef (env.predicateName (.slice elem)), .int]
        [.ref (.list loc elems), .int start] = some (.seq (vals.drop start)) := by
  have hlength := (hvals depth (Nat.le_refl _)).length_eq
  induction remaining generalizing start fuel with
  | zero =>
    obtain ⟨fuel, rfl⟩ : ∃ fuel', fuel = fuel' + 2 := ⟨fuel - 2, by omega⟩
    rw [callFunction_sliceCollect hdecodes hty,
      callBody_sliceCollect (callFunction_sliceLen hdecodes hty rfl fuel),
      if_pos (by omega), List.drop_eq_nil_of_le (by omega)]
  | succ remaining ih =>
    obtain ⟨fuel, rfl⟩ : ∃ fuel', fuel = fuel' + 2 := ⟨fuel - 2, by omega⟩
    have hlt : start < elems.length := by omega
    have hlt' : start < vals.length := by omega
    have hval := (List.forall₂_iff_get.mp (hvals fuel (by omega))).2 start hlt hlt'
    have hrest := ih (start + 1) (fuel + 1) (by omega) (by omega)
    rw [Nat.cast_add, Nat.cast_one] at hrest
    rw [callFunction_sliceCollect hdecodes hty,
      callBody_sliceCollect (callFunction_sliceLen hdecodes hty rfl fuel),
      if_neg (by omega), callFunction_lookupPure hdecodes hty rfl loc elems fuel start,
      List.getElem?_eq_getElem hlt, Option.bind_some, hrest, List.drop_eq_getElem_cons hlt']
    simp only [List.get_eq_getElem] at hval
    rw [hval]
    rfl

/-- The snapshot of a slice. -/
theorem isSnapshot_slice (hdecodes : Decodes env types decodeTypePredicate)
    (hty : .slice elem ∈ types)
    (hvals : List.Forall₂ (IsSnapshot I env decodeTypePredicate elem) elems vals) :
    IsSnapshot I env decodeTypePredicate (.slice elem) (.list loc elems)
      (I.func (seqConsFunc (env.predicateName (.slice elem)) (env.encodeType elem))
        [.seq vals]) := by
  refine isSnapshot_of_bodyYields hdecodes hty (.inr (.inr ⟨elem, none, rfl⟩)) rfl rfl rfl ?_
  obtain ⟨depth, hdepth⟩ := settles_forall₂ hvals
  refine ⟨depth + elems.length + 2, fun fuel hfuel =>
    Interp.value_apply (Interp.values_singleton ?_)⟩
  have hcollect := sliceCollect_eq hdecodes hty hdepth loc elems.length 0 fuel (by omega) hfuel
  simpa [sliceCollectCall, argRefExpr, argRefLocal, Expr.ofLocal, Expr.ofInt, Interp.value,
    Interp.values] using hcollect

end Sequences

end Yields

end Prusti.Snapshots

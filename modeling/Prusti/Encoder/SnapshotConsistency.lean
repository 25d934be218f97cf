/-
The axioms of the snapshot domains are consistent exactly if no tuple,
structure or variant has a field of an integer or character type: the bounds
of such a field hold of every element of the domain, while its constructor
takes every integer.
-/
import Prusti.Encoder.SnapshotMeaning
import Prusti.Lib.Names

namespace Prusti.Snapshots

open Prusti.Vir Prusti.Lib
open Prusti.Encoder (ofBigInt rangeExtract rangeExpr rangeLoop)

variable {field : SnapshotField} {ty : Ty} {fields : List SnapshotField} {variant : SnapshotVariant}
  {idx : Nat} {typ elemTyp : Typ}

/-- What the language ensures of definitions: the fields of a variant have
different names, and a structure has one variant. -/
structure TypeEnv.WellFormed (env : TypeEnv) : Prop where
  nodup_fields : ∀ name, ∀ variant ∈ (env.adtDef name).variants,
    (variant.fields.map (·.ident)).Nodup
  struct_variants : ∀ name, (env.adtDef name).isEnum = false → (env.adtDef name).variants.length ≤ 1

/-- The types of the fields of a tuple or of a definition. -/
def TypeEnv.fieldTypes (env : TypeEnv) : Ty → List Ty
  | .tuple elems => elems
  | .adt name => (env.adtDef name).variants.flatMap fun variant =>
    variant.fields.map (·.ty)
  | _ => []

section Variants

variable {env : TypeEnv}

variable (env) in
/-- The type of a snapshot is a sort. -/
theorem encodeType_cases (ty : Ty) :
    env.encodeType ty = .int ∨ env.encodeType ty = .bool ∨
      (∃ name, env.encodeType ty = .domain name) ∨
      ∃ name, env.encodeType ty = .snapshot name := by
  unfold TypeEnv.encodeType
  dsimp only
  split
  · exact .inl rfl
  · exact .inl rfl
  · exact .inl rfl
  · exact .inr (.inl rfl)
  · split
    · exact .inr (.inr (.inl ⟨_, rfl⟩))
    · exact .inr (.inr (.inr ⟨_, rfl⟩))

/-- The form of the variants that snapshots are made for. -/
structure VariantsOf (env : TypeEnv) (ty : Ty) (variants : List SnapshotVariant) : Prop where
  ne_nil : variants ≠ []
  nodup : ∀ variant ∈ variants, (variant.fields.map (·.name)).Nodup
  typ_eq : ∀ variant ∈ variants, ∀ field ∈ variant.fields, field.typ = env.encodeType field.mirType
  mem_iff : ∀ ty', (∃ variant ∈ variants, ∃ field ∈ variant.fields,
    field.mirType = ty') ↔ ty' ∈ env.fieldTypes ty

theorem nodup_variantFields {variant : VariantDef} (base : Expr)
    (h : (variant.fields.map (·.ident)).Nodup) :
    ((env.variantFields base variant).map (·.name)).Nodup := by
  have hmap : (env.variantFields base variant).map (·.name) =
      (variant.fields.map (·.ident)).map ("f$" ++ ·) := by
    simp [TypeEnv.variantFields, TypeEnv.snapshotField, Function.comp_def]
  rw [hmap]
  exact h.map (append_left_injective "f$")

theorem typ_of_mem_variantFields {base : Expr} {variant : VariantDef}
    (h : field ∈ env.variantFields base variant) :
    field.typ = env.encodeType field.mirType := by
  obtain ⟨def', -, rfl⟩ := List.mem_map.mp h
  rfl

theorem mirType_variantFields (base : Expr) (variant : VariantDef) (ty : Ty) :
    (∃ field ∈ env.variantFields base variant, field.mirType = ty) ↔
      ty ∈ variant.fields.map (·.ty) := by
  simp [TypeEnv.variantFields, TypeEnv.snapshotField]

theorem variantsOf_tuple (elems : List Ty) :
    VariantsOf env (.tuple elems) [env.tupleVariant (env.predicateName (.tuple elems)) elems] where
  ne_nil := by simp
  nodup := by
    intro variant hvariant
    rw [List.mem_singleton.mp hvariant]
    have hmap : ((env.tupleVariant (env.predicateName (.tuple elems))
        elems).fields.map (·.name)) =
          (List.range elems.length).map (fun idx => "tuple_" ++ toString idx) := by
      refine List.ext_getElem (by simp [TypeEnv.tupleVariant]) ?_
      simp [TypeEnv.tupleVariant, TypeEnv.snapshotField]
    rw [hmap]
    refine List.nodup_range.map fun left right heq => ?_
    exact toString_injective (append_left_injective "tuple_" heq)
  typ_eq := by
    intro variant hvariant field hfield
    rw [List.mem_singleton.mp hvariant] at hfield
    obtain ⟨item, -, rfl⟩ := List.mem_map.mp hfield
    rfl
  mem_iff := by
    intro ty'
    have hmem : (∃ idx, (ty', idx) ∈ elems.zipIdx) ↔ ty' ∈ elems := by
      constructor
      · rintro ⟨idx, hidx⟩
        exact (List.mem_zipIdx' hidx).2 ▸ List.getElem_mem _
      · intro h
        obtain ⟨idx, hidx⟩ := List.mem_iff_getElem?.mp h
        exact ⟨idx, List.mk_mem_zipIdx_iff_getElem?.mpr hidx⟩
    simpa [TypeEnv.tupleVariant, TypeEnv.snapshotField, TypeEnv.fieldTypes] using hmem

/-- A structure has the fields of its only variant. -/
theorem variantsOf_struct {name : String} (hwf : env.WellFormed)
    (hstruct : (env.adtDef name).isEnum = false) (ty : Ty) (hty : ty = .adt name) :
    VariantsOf env ty (env.adtVariants (env.predicateName ty) (env.adtDef name)) := by
  subst hty
  have hlength := hwf.struct_variants name hstruct
  have hnodup := hwf.nodup_fields name
  rw [TypeEnv.adtVariants, hstruct]
  simp only [Bool.false_eq_true, if_false]
  refine ⟨by simp, ?_, ?_, ?_⟩
  · intro variant hvariant
    rw [List.mem_singleton.mp hvariant]
    match hvariants : (env.adtDef name).variants with
    | [] => exact List.nodup_nil
    | [only] =>
      rw [hvariants] at hnodup
      simpa using nodup_variantFields _ (hnodup only List.mem_cons_self)
    | _ :: _ :: _ =>
      rw [hvariants] at hlength
      simp at hlength
  · intro variant hvariant field hfield
    rw [List.mem_singleton.mp hvariant, List.mem_flatMap] at hfield
    obtain ⟨def', -, hfield⟩ := hfield
    exact typ_of_mem_variantFields hfield
  · intro ty'
    rw [TypeEnv.fieldTypes, List.mem_flatMap]
    constructor
    · rintro ⟨only, honly, field, hfield, hty⟩
      rw [List.mem_singleton.mp honly, List.mem_flatMap] at hfield
      obtain ⟨variant, hvariant, hfield⟩ := hfield
      exact ⟨variant, hvariant, (mirType_variantFields _ variant ty').mp ⟨field, hfield, hty⟩⟩
    · rintro ⟨variant, hvariant, hty⟩
      obtain ⟨field, hfield, hmir⟩ :=
        (mirType_variantFields (argRefExpr (env.predicateName (.adt name))) variant ty').mpr hty
      exact ⟨_, List.mem_singleton_self _, field,
        List.mem_flatMap.mpr ⟨variant, hvariant, hfield⟩, hmir⟩

/-- The variants of an enumeration have their own fields, below a base. -/
theorem variantsOf_enum {name : String} (hwf : env.WellFormed)
    (henum : (env.adtDef name).isEnum = true)
    (hvariants : (env.adtDef name).variants ≠ []) (ty : Ty) (hty : ty = .adt name) :
    VariantsOf env ty (env.adtVariants (env.predicateName ty) (env.adtDef name)) := by
  subst hty
  have hform : ∀ variant, variant ∈ env.adtVariants (env.predicateName (.adt name))
      (env.adtDef name) → ∃ def' ∈ (env.adtDef name).variants, ∃ base,
        variant.fields = env.variantFields base def' := by
    intro variant hvariant
    rw [TypeEnv.adtVariants, if_pos henum] at hvariant
    obtain ⟨def', hdef, rfl⟩ := List.mem_map.mp hvariant
    refine ⟨def', hdef, ?_⟩
    split
    · exact ⟨_, rfl⟩
    · exact ⟨_, rfl⟩
  have hform' : ∀ def' ∈ (env.adtDef name).variants, ∃ variant ∈ env.adtVariants
      (env.predicateName (.adt name)) (env.adtDef name), ∃ base,
        variant.fields = env.variantFields base def' := by
    intro def' hdef
    rw [TypeEnv.adtVariants, if_pos henum]
    refine ⟨_, List.mem_map_of_mem hdef, ?_⟩
    split
    · exact ⟨_, rfl⟩
    · exact ⟨_, rfl⟩
  refine ⟨?_, ?_, ?_, ?_⟩
  · rw [TypeEnv.adtVariants, if_pos henum]
    simpa using hvariants
  · intro variant hvariant
    obtain ⟨def', hdef, base, hfields⟩ := hform variant hvariant
    rw [hfields]
    exact nodup_variantFields base (hwf.nodup_fields name def' hdef)
  · intro variant hvariant field hfield
    obtain ⟨def', hdef, base, hfields⟩ := hform variant hvariant
    exact typ_of_mem_variantFields (hfields ▸ hfield)
  · intro ty'
    rw [TypeEnv.fieldTypes, List.mem_flatMap]
    constructor
    · rintro ⟨variant, hvariant, field, hfield, hty⟩
      obtain ⟨def', hdef, base, hfields⟩ := hform variant hvariant
      exact ⟨def', hdef, (mirType_variantFields base def' ty').mp ⟨field, hfields ▸ hfield, hty⟩⟩
    · rintro ⟨def', hdef, hty⟩
      obtain ⟨variant, hvariant, base, hfields⟩ := hform' def' hdef
      obtain ⟨field, hfield, hmir⟩ := (mirType_variantFields base def' ty').mpr hty
      exact ⟨variant, hvariant, field, hfields ▸ hfield, hmir⟩

theorem variantsOf_complexVariants (hwf : env.WellFormed) {variants : List SnapshotVariant}
    (h : env.complexVariants ty = some variants) : VariantsOf env ty variants := by
  unfold TypeEnv.complexVariants at h
  split at h
  · cases h
  · next hunit =>
      split at h
      · next elems =>
          cases h
          exact variantsOf_tuple elems
      · next name =>
          cases h
          cases hkind : (env.adtDef name).isEnum with
          | false => exact variantsOf_struct hwf hkind _ rfl
          | true =>
            refine variantsOf_enum hwf hkind ?_ _ rfl
            intro hnil
            simp [TypeEnv.isUnit, hnil] at hunit
      · cases h

end Variants

section Domain

variable {env : TypeEnv} {predicateName : String}
  {variants : List SnapshotVariant}

theorem mem_functions_complexDomain {func : DomainFunc} :
    func ∈ (complexDomain variants predicateName).functions ↔
      (1 < variants.length ∧ func = discriminantFunc predicateName) ∨
      ∃ variant idx, variants[idx]? = some variant ∧
        (func = constructorFunc predicateName idx variant.fields ∨
          ∃ field ∈ variant.fields, func = fieldAccessFunc predicateName idx field) := by
  simp only [complexDomain, List.mem_append, List.mem_flatMap, variantFuncs,
    List.mem_cons, List.mem_map, decide_eq_true_eq, Prod.exists,
    List.mk_mem_zipIdx_iff_getElem?, List.mem_ite_nil_right, List.not_mem_nil,
    or_false, eq_comm (b := func)]

/-- The axioms of a domain: the range of the discriminant, and for every
variant its injectivity, its discriminant and its fields. -/
theorem forall_axioms_complexDomain {P : Expr → Prop} :
    (∀ ax ∈ (complexDomain variants predicateName).axioms, P ax.expr) ↔
      (1 < variants.length → P (discriminantRange predicateName variants).expr) ∧
      ∀ variant idx, variants[idx]? = some variant →
        (variant.fields ≠ [] → P (injectivity predicateName idx variant.fields).expr) ∧
        (1 < variants.length → P (discriminantAxiom predicateName idx variant).expr) ∧
        ∀ field fieldIdx, variant.fields[fieldIdx]? = some field →
          P (fieldAxiom predicateName idx variant.fields field fieldIdx).expr ∧
          (field.mirType.isInt = true → P (validAxiom predicateName idx field).expr) := by
  have hfield : ∀ idx fields field fieldIdx,
      (∀ ax ∈ fieldAxioms predicateName idx fields (field, fieldIdx), P ax.expr) ↔
        P (fieldAxiom predicateName idx fields field fieldIdx).expr ∧
        (field.mirType.isInt = true → P (validAxiom predicateName idx field).expr) := by
    intro idx fields field fieldIdx
    cases hint : field.mirType.isInt <;> simp [fieldAxioms, hint]
  have hvariant : ∀ (multiple : Bool) idx variant,
      (∀ ax ∈ variantAxioms predicateName multiple (variant, idx), P ax.expr) ↔
        (variant.fields ≠ [] → P (injectivity predicateName idx variant.fields).expr) ∧
        (multiple = true → P (discriminantAxiom predicateName idx variant).expr) ∧
        ∀ field fieldIdx, variant.fields[fieldIdx]? = some field →
          ∀ ax ∈ fieldAxioms predicateName idx variant.fields (field, fieldIdx), P ax.expr := by
    intro multiple idx variant
    simp only [variantAxioms, List.forall_mem_append, List.forall_mem_flatMap,
      Prod.forall, List.mk_mem_zipIdx_iff_getElem?, and_assoc]
    refine and_congr ?_ (and_congr ?_ Iff.rfl)
    · cases variant.fields <;> simp
    · cases multiple <;> simp
  simp only [complexDomain, List.forall_mem_append, List.forall_mem_flatMap,
    Prod.forall, List.mk_mem_zipIdx_iff_getElem?, hvariant, hfield, decide_eq_true_eq]
  refine and_congr ?_ Iff.rfl
  split <;> simp_all

theorem domain_encodeComplex {snapshot : ComplexSnapshot}
    (h : encodeComplex variants predicateName = some snapshot) :
    snapshot.domain = complexDomain variants predicateName := by
  obtain ⟨body, -, heq⟩ := Option.bind_eq_some_iff.mp h
  cases heq
  rfl

theorem exists_encodeComplex (h : variants ≠ []) (predicateName : String) :
    ∃ snapshot, encodeComplex variants predicateName = some snapshot ∧
      snapshot.domain = complexDomain variants predicateName := by
  match variants, h with
  | first :: rest, _ => exact ⟨_, rfl, rfl⟩

/-- The domains of a type. -/
theorem domain?_of_encodeSnapshotInternal (hwf : env.WellFormed) {domain : Domain} :
    (∃ snapshot, env.encodeSnapshotInternal ty = some snapshot ∧
      snapshot.domain? = some domain) ↔
      (∃ variants, env.complexVariants ty = some variants ∧
        domain = complexDomain variants (env.predicateName ty)) ∨
      (∃ elem length, ty = .array elem length ∧
        domain = arrayDomain (env.predicateName ty) (env.encodeType elem)) ∨
      (∃ elem, ty = .slice elem ∧
        domain = sliceDomain (env.predicateName ty) (env.encodeType elem)) := by
  constructor
  · rintro ⟨snapshot, hsnapshot, hdomain⟩
    cases ty with
    | array elem length =>
      cases hsnapshot
      cases hdomain
      exact .inr (.inl ⟨elem, length, rfl, rfl⟩)
    | slice elem =>
      cases hsnapshot
      cases hdomain
      exact .inr (.inr ⟨elem, rfl, rfl⟩)
    | tuple _ | adt _ =>
      simp only [TypeEnv.encodeSnapshotInternal] at hsnapshot
      split at hsnapshot
      · cases hsnapshot
        cases hdomain
      · next variants hvariants =>
          obtain ⟨complex, hcomplex, rfl⟩ := Option.map_eq_some_iff.mp hsnapshot
          cases hdomain
          exact .inl ⟨variants, hvariants, domain_encodeComplex hcomplex⟩
    | _ =>
      cases hsnapshot
      try cases hdomain
  · rintro (⟨variants, hvariants, rfl⟩ | ⟨elem, length, rfl, rfl⟩ | ⟨elem, rfl, rfl⟩)
    · obtain ⟨snapshot, hsnapshot, hdomain⟩ := exists_encodeComplex
        (variantsOf_complexVariants hwf hvariants).ne_nil (env.predicateName ty)
      refine ⟨.complex snapshot, ?_, congrArg some hdomain⟩
      cases ty with
      | tuple _ | adt _ =>
        simp only [TypeEnv.encodeSnapshotInternal, hvariants, hsnapshot, Option.map_some]
      | _ =>
        unfold TypeEnv.complexVariants at hvariants
        split at hvariants <;> cases hvariants
    · exact ⟨_, rfl, rfl⟩
    · exact ⟨_, rfl, rfl⟩

end Domain

/-- The functions of the domain of a tuple or a definition keep the sorts, and its axioms
hold but for the ranges of discriminants and the bounds of fields. -/
structure ModelsVariants (I : Interp) (variants : List SnapshotVariant)
    (predicateName : String) : Prop where
  sorted : ∀ func ∈ (complexDomain variants predicateName).functions, ∀ args,
    I.HasSorts func.formalArgs args → I.HasSort func.returnType (I.func func args)
  injectivity : ∀ variant idx, variants[idx]? = some variant → variant.fields ≠ [] →
    I.Holds [] (injectivity predicateName idx variant.fields).expr
  discriminant : 1 < variants.length → ∀ variant idx, variants[idx]? = some variant →
    I.Holds [] (discriminantAxiom predicateName idx variant).expr
  field : ∀ variant idx, variants[idx]? = some variant →
    ∀ field fieldIdx, variant.fields[fieldIdx]? = some field →
      I.Holds [] (fieldAxiom predicateName idx variant.fields field fieldIdx).expr

section Contradiction

variable {env : TypeEnv} {I : Interp} {predicateName : String}
  {variants : List SnapshotVariant}

theorem encodeType_of_isInt (h : ty.isInt = true) : env.encodeType ty = .int := by
  cases ty with
  | int _ | uint _ | char => rfl
  | _ => cases h

theorem exists_hasSort_encodeType (hI : I.NonemptySorts) (ty : Ty) :
    ∃ val, I.HasSort (env.encodeType ty) val := by
  rcases encodeType_cases env ty with h | h | ⟨name, h⟩ | ⟨name, h⟩
  · rw [h]
    exact ⟨.int 0, 0, rfl⟩
  · rw [h]
    exact ⟨.bool true, true, rfl⟩
  · obtain ⟨e, he⟩ := hI.nonempty name
    rw [h]
    exact ⟨.elem e, e, he, rfl⟩
  · obtain ⟨e, he⟩ := hI.nonempty ("Snap$" ++ name)
    rw [h]
    exact ⟨.elem e, e, he, rfl⟩

/-- There are values for the fields of a variant, with any value for the field
at a position. -/
theorem exists_fieldsSorted (hfields : ∀ field ∈ fields, ∃ val, I.HasSort field.typ val)
    {fieldIdx : Nat} {val : Value I.E} (hfield : fields[fieldIdx]? = some field)
    (hval : I.HasSort field.typ val) :
    ∃ vals, FieldsSorted I fields vals ∧ vals[fieldIdx]? = some val := by
  induction fields generalizing fieldIdx with
  | nil => cases hfield
  | cons first fields ih =>
    rw [List.forall_mem_cons] at hfields
    cases fieldIdx with
    | zero =>
      cases hfield
      obtain ⟨vals, hvals⟩ := exists_forall₂ hfields.2
      exact ⟨val :: vals, .cons hval hvals, rfl⟩
    | succ fieldIdx =>
      obtain ⟨firstVal, hfirst⟩ := hfields.1
      obtain ⟨vals, hvals, hget⟩ := ih hfields.2 hfield
      exact ⟨firstVal :: vals, .cons hfirst hvals, hget⟩

/-- The bounds of an integer field contradict its constructor, which takes
every integer. -/
theorem not_models_of_isInt (hI : I.NonemptySorts) (hof : VariantsOf env ty variants)
    (hvariant : variants[idx]? = some variant) (hfield : field ∈ variant.fields)
    (hint : field.mirType.isInt = true) :
    ¬ I.Models (complexDomain variants predicateName) := by
  intro hmodels
  have hmem := List.mem_of_getElem? hvariant
  obtain ⟨fieldIdx, hfieldIdx⟩ := List.mem_iff_getElem?.mp hfield
  obtain ⟨-, -, hfieldAxioms⟩ :=
    (forall_axioms_complexDomain.mp hmodels.holds).2 variant idx hvariant
  obtain ⟨haccess, hvalid⟩ := hfieldAxioms field fieldIdx hfieldIdx
  obtain ⟨low, high, hbounds⟩ := exists_bounds_of_validAxiom hint (hvalid hint)
  -- an argument above the upper bound
  have htyp : I.HasSort field.typ (.int (high + 1)) := by
    rw [hof.typ_eq variant hmem field hfield, encodeType_of_isInt hint]
    exact ⟨high + 1, rfl⟩
  have hfields : ∀ field ∈ variant.fields, ∃ val, I.HasSort field.typ val := by
    intro field hfield
    rw [hof.typ_eq variant hmem field hfield]
    exact exists_hasSort_encodeType hI field.mirType
  obtain ⟨vals, hvals, hget⟩ := exists_fieldsSorted hfields hfieldIdx htyp
  have hsorted : I.HasSort (.snapshot predicateName)
      (I.func (constructorFunc predicateName idx variant.fields) vals) :=
    hmodels.sorted _ (mem_functions_complexDomain.mpr
        (.inr ⟨variant, idx, hvariant, .inl rfl⟩)) vals
      ((hasSorts_constructorArgs _ _ _).mpr hvals)
  have hselected := (holds_fieldAxiom_iff hfieldIdx).mp haccess vals hvals
  rw [hget, Option.some.injEq] at hselected
  have hle := (hbounds _ hsorted (high + 1) hselected).2
  omega

end Contradiction

/-- An element of a snapshot domain: a constructor with its arguments. -/
inductive Snap where
  | mk (cons : DomainFunc) (args : List (Value Snap))

namespace Snap

/-- The values of a type, when every element belongs to every domain. -/
def HasShape : Typ → Value Snap → Prop
  | .int, value => ∃ n, value = .int n
  | .bool, value => ∃ b, value = .bool b
  | .seq typ, value => ∃ elems, value = .seq elems ∧ ∀ elem ∈ elems, HasShape typ elem
  | .domain _, value => ∃ e, value = .elem e
  | .snapshot _, value => ∃ e, value = .elem e
  | .typedRef _, _ => False

/-- Some value of a type. -/
def default : Typ → Value Snap
  | .int => .int 0
  | .bool => .bool true
  | .seq _ => .seq []
  | .domain _ => .elem (.mk unitFunc [])
  | .snapshot _ => .elem (.mk unitFunc [])
  | .typedRef _ => .int 0

theorem hasShape_default {value : Value Snap} (h : HasShape typ value) :
    HasShape typ (default typ) := by
  cases typ with
  | int => exact ⟨0, rfl⟩
  | bool => exact ⟨true, rfl⟩
  | seq typ => exact ⟨[], rfl, fun _ h => nomatch h⟩
  | domain name => exact ⟨_, rfl⟩
  | snapshot name => exact ⟨_, rfl⟩
  | typedRef name => exact h.elim

open Classical in
/-- A value of a type that is as required, if there is one. -/
noncomputable def pick (typ : Typ) (required : Value Snap → Prop) : Value Snap :=
  if h : ∃ value, required value ∧ HasShape typ value then h.choose
  else default typ

theorem hasShape_pick (required : Value Snap → Prop) (h : HasShape typ (default typ)) :
    HasShape typ (pick typ required) := by
  unfold pick
  split
  · next hex => exact hex.choose_spec.2
  · exact h

theorem pick_spec {required : Value Snap → Prop} {value : Value Snap} (h : required value)
    (hshape : HasShape typ value) :
    required (pick typ required) := by
  have hex : ∃ value, required value ∧ HasShape typ value := ⟨value, h, hshape⟩
  rw [pick, dif_pos hex]
  exact hex.choose_spec.1

theorem pick_eq {required : Value Snap → Prop} {value : Value Snap} (h : required value)
    (hshape : HasShape typ value) (huniq : ∀ value', required value' → value' = value) :
    pick typ required = value :=
  huniq _ (pick_spec h hshape)

section Model

variable (env : TypeEnv) (types : Set Ty)

/-- The constructor at a position of the variants of a type. -/
structure ConsOf (ty : Ty) (idx : Nat) (variant : SnapshotVariant) : Prop where
  mem : ty ∈ types
  variants : ∃ variants, env.complexVariants ty = some variants ∧ variants[idx]? = some variant

/-- What the access function of a field has to yield. -/
def FieldIs (func : DomainFunc) (args : List (Value Snap)) (value : Value Snap) : Prop :=
  ∃ ty idx variant field vals, ∃ fieldIdx : Nat,
    ConsOf env types ty idx variant ∧ variant.fields[fieldIdx]? = some field ∧
    func = fieldAccessFunc (env.predicateName ty) idx field ∧
    args = [.elem (.mk (constructorFunc (env.predicateName ty) idx
      variant.fields) vals)] ∧
    vals[fieldIdx]? = some value

/-- What the discriminant of a constructor has to be. -/
def DiscriminantIs (func : DomainFunc) (args : List (Value Snap)) (value : Value Snap) : Prop :=
  ∃ ty idx variant vals, ConsOf env types ty idx variant ∧
    func = discriminantFunc (env.predicateName ty) ∧
    args = [.elem (.mk (constructorFunc (env.predicateName ty) idx
      variant.fields) vals)] ∧
    value = .int variant.discriminant

/-- The discriminants of a type. -/
def IsDiscriminant (func : DomainFunc) (value : Value Snap) : Prop :=
  ∃ ty idx variant, ConsOf env types ty idx variant ∧
    func = discriminantFunc (env.predicateName ty) ∧
    value = .int variant.discriminant

/-- The element of a sequence at an index. -/
def elemAt (typ : Typ) (elems : List (Value Snap)) (index : Int) : Value Snap :=
  if 0 ≤ index then elems[index.toNat]?.getD (default typ) else default typ

/-- What has to be read at an index. -/
def ReadIs (typ : Typ) (args : List (Value Snap)) (value : Value Snap) : Prop :=
  ∃ cons elems index, args = [.elem (.mk cons [.seq elems]), .int index] ∧
    value = elemAt typ elems index

/-- What the length of a sequence has to be. -/
def LengthIs (args : List (Value Snap)) (value : Value Snap) : Prop :=
  ∃ cons elems, args = [.elem (.mk cons [.seq elems])] ∧ value = .int elems.length

/-- What a function has to yield; the first letter of its name tells what kind
of function it is. -/
def Required (func : DomainFunc) (args : List (Value Snap)) (value : Value Snap) : Prop :=
  match func.name.toList.head? with
  | some 'S' => FieldIs env types func args value
  | some 'd' => DiscriminantIs env types func args value ∨
      (¬ ∃ value, DiscriminantIs env types func args value) ∧ IsDiscriminant env types func value
  | some 'r' => ReadIs func.returnType args value
  | some 'l' => LengthIs args value
  | _ => False

/-- A constructor yields itself with its arguments. -/
noncomputable def apply (func : DomainFunc) (args : List (Value Snap)) : Value Snap :=
  if func.name.toList.head? = some 'c' then .elem (.mk func args)
  else pick func.returnType (Required env types func args)

/-- The interpretation by terms. -/
@[reducible]
noncomputable def interp : Interp where
  E := Snap
  sort := fun _ => Set.univ
  func := apply env types
  outOfRange := fun typ _ _ => default typ

variable {env types}

variable {func : DomainFunc} {args : List (Value Snap)} {predicateName : String}
  {variants : List SnapshotVariant}

theorem hasSort_interp {value : Value Snap} :
    (interp env types).HasSort typ value ↔ HasShape typ value := by
  induction typ generalizing value with
  | seq typ ih =>
    refine exists_congr fun elems => and_congr_right fun _ => ?_
    exact forall_congr' fun elem => imp_congr_right fun _ => ih
  | domain name | snapshot name =>
    exact ⟨fun ⟨e, _, he⟩ => ⟨e, he⟩, fun ⟨e, he⟩ => ⟨e, trivial, he⟩⟩
  | _ => exact Iff.rfl

theorem fieldsSorted_interp {vals : List (Value Snap)} :
    FieldsSorted (interp env types) fields vals ↔
      List.Forall₂ (fun field val => HasShape field.typ val) fields vals := by
  constructor
  · intro h
    exact h.imp fun _ _ hval => hasSort_interp.mp hval
  · intro h
    exact h.imp fun _ _ hval => hasSort_interp.mpr hval

theorem nonemptySorts_interp : (interp env types).NonemptySorts where
  nonempty := fun _ => ⟨.mk unitFunc [], trivial⟩
  outOfRange_sorted := by
    rintro typ elems index ⟨value, hvalue⟩
    exact hasSort_interp.mpr (hasShape_default (hasSort_interp.mp hvalue))

theorem hasShape_default_encodeType (ty : Ty) :
    HasShape (env.encodeType ty) (default (env.encodeType ty)) := by
  rcases encodeType_cases env ty with h | h | ⟨name, h⟩ | ⟨name, h⟩ <;>
    rw [h] <;> exact ⟨_, rfl⟩

section Names

variable (predicateName : String)

theorem head_constructorFunc (idx : Nat) (fields : List SnapshotField) :
    (constructorFunc predicateName idx fields).name.toList.head? = some 'c' :=
  head?_append (head?_append rfl)

theorem head_seqConsFunc (elemTyp : Typ) :
    (seqConsFunc predicateName elemTyp).name.toList.head? = some 'c' :=
  head?_append (head?_append rfl)

theorem head_fieldAccessFunc (idx : Nat) (field : SnapshotField) :
    (fieldAccessFunc predicateName idx field).name.toList.head? = some 'S' :=
  head?_append (head?_append (head?_append (head?_append (head?_append rfl))))

theorem head_discriminantFunc : (discriminantFunc predicateName).name.toList.head? = some 'd' := by
  change "discriminant$".toList.head? = some 'd'
  decide

theorem head_seqReadFunc (elemTyp : Typ) (argName : String) :
    (seqReadFunc predicateName elemTyp argName).name.toList.head? = some 'r' :=
  head?_append (head?_append rfl)

theorem head_sliceLenFunc : (sliceLenFunc predicateName).name.toList.head? = some 'l' :=
  head?_append (head?_append rfl)

end Names

theorem apply_cons (h : func.name.toList.head? = some 'c') :
    apply env types func args = .elem (.mk func args) :=
  if_pos h

theorem apply_of_head {letter : Char} (h : func.name.toList.head? = some letter)
    (hne : letter ≠ 'c') :
    apply env types func args = pick func.returnType (Required env types func args) :=
  if_neg (by simpa [h] using hne)

theorem hasShape_apply (h : HasShape func.returnType (default func.returnType))
    (hcons : func.name.toList.head? ≠ some 'c') :
    HasShape func.returnType (apply env types func args) := by
  rw [apply, if_neg hcons]
  exact hasShape_pick _ h

section Required

variable {func : DomainFunc} {args : List (Value Snap)} {value : Value Snap}

theorem required_field (h : func.name.toList.head? = some 'S') :
    Required env types func args value ↔ FieldIs env types func args value := by
  simp only [Required, h]

theorem required_discriminant (h : func.name.toList.head? = some 'd') :
    Required env types func args value ↔
      DiscriminantIs env types func args value ∨
      (¬ ∃ value, DiscriminantIs env types func args value) ∧
        IsDiscriminant env types func value := by
  simp only [Required, h]

theorem required_read (h : func.name.toList.head? = some 'r') :
    Required env types func args value ↔ ReadIs func.returnType args value := by
  simp only [Required, h]

theorem required_length (h : func.name.toList.head? = some 'l') :
    Required env types func args value ↔ LengthIs args value := by
  simp only [Required, h]

end Required

theorem index_of_constructorFunc {predicateName' : String} {idx' : Nat}
    {fields' : List SnapshotField}
    (h : constructorFunc predicateName idx fields = constructorFunc predicateName' idx' fields') :
    idx = idx' := by
  have hname : "cons$" ++ toString idx ++ "$" = "cons$" ++ toString idx' ++ "$" :=
    congrArg (·.name) h
  exact toString_injective (append_left_injective "cons$"
    (append_right_injective "$" hname))

theorem predicateName_of_domainName {predicateName' : String}
    (h : domainName predicateName = domainName predicateName') :
    predicateName = predicateName' :=
  append_left_injective "Snap$" h

/-- The type of a domain and the position of a constructor determine the
variant. -/
theorem ConsOf.unique (hinj : Set.InjOn env.predicateName types) {ty' : Ty}
    {variant' : SnapshotVariant} (h : ConsOf env types ty idx variant)
    (h' : ConsOf env types ty' idx variant')
    (hname : env.predicateName ty = env.predicateName ty') :
    ty = ty' ∧ variant = variant' := by
  obtain rfl := hinj h.mem h'.mem hname
  obtain ⟨variants, hvariants, hget⟩ := h.variants
  obtain ⟨variants', hvariants', hget'⟩ := h'.variants
  rw [hvariants, Option.some.injEq] at hvariants'
  rw [← hvariants', hget, Option.some.injEq] at hget'
  exact ⟨rfl, hget'⟩

/-- The access function of a field yields the argument at its position. -/
theorem apply_fieldAccessFunc (hwf : env.WellFormed) (hinj : Set.InjOn env.predicateName types)
    {fieldIdx : Nat} (hcons : ConsOf env types ty idx variant)
    (hfield : variant.fields[fieldIdx]? = some field) {vals : List (Value Snap)}
    {value : Value Snap} (hvalue : vals[fieldIdx]? = some value)
    (hshape : HasShape field.typ value) :
    apply env types (fieldAccessFunc (env.predicateName ty) idx field)
      [.elem (.mk (constructorFunc (env.predicateName ty) idx variant.fields) vals)] = value := by
  have hhead := head_fieldAccessFunc (env.predicateName ty) idx field
  rw [apply_of_head hhead (by decide)]
  refine pick_eq ?_ hshape ?_
  · rw [required_field hhead]
    exact ⟨ty, idx, variant, field, vals, fieldIdx, hcons, hfield, rfl, rfl, hvalue⟩
  · intro value' hrequired
    rw [required_field hhead] at hrequired
    obtain ⟨ty', idx', variant', field', vals', fieldIdx', hcons', hfield', hfunc,
      hargs, hvalue'⟩ := hrequired
    simp only [List.cons.injEq, Value.elem.injEq, Snap.mk.injEq, and_true] at hargs
    obtain ⟨hconsFunc, rfl⟩ := hargs
    obtain rfl := index_of_constructorFunc hconsFunc
    obtain ⟨rfl, rfl⟩ := hcons.unique hinj hcons'
      (predicateName_of_domainName (congrArg (·.domainName) hfunc))
    -- the name of the field determines its position
    have hname : field.name = field'.name := append_left_injective _ (congrArg (·.name) hfunc)
    obtain ⟨variants, hvariants, hget⟩ := hcons.variants
    have hnodup := (variantsOf_complexVariants hwf hvariants).nodup variant
      (List.mem_of_getElem? hget)
    have hidx : fieldIdx = fieldIdx' := by
      refine (List.getElem?_inj ?_ hnodup).mp (by simp [hfield, hfield', hname])
      rw [List.length_map]
      exact (List.getElem?_eq_some_iff.mp hfield).1
    rw [← hidx, hvalue, Option.some.injEq] at hvalue'
    exact hvalue'.symm

/-- The discriminant of an element that is made by a constructor. -/
theorem apply_discriminantFunc (hinj : Set.InjOn env.predicateName types)
    (hcons : ConsOf env types ty idx variant) (vals : List (Value Snap)) :
    apply env types (discriminantFunc (env.predicateName ty))
      [.elem (.mk (constructorFunc (env.predicateName ty) idx variant.fields)
        vals)] = .int variant.discriminant := by
  have hhead := head_discriminantFunc (env.predicateName ty)
  have his : DiscriminantIs env types (discriminantFunc (env.predicateName ty))
      [.elem (.mk (constructorFunc (env.predicateName ty) idx variant.fields) vals)]
      (.int variant.discriminant) :=
    ⟨ty, idx, variant, vals, hcons, rfl, rfl, rfl⟩
  rw [apply_of_head hhead (by decide)]
  refine pick_eq ?_ ⟨_, rfl⟩ ?_
  · rw [required_discriminant hhead]
    exact .inl his
  · intro value' hrequired
    rw [required_discriminant hhead] at hrequired
    rcases hrequired with hrequired | ⟨hnone, -⟩
    · obtain ⟨ty', idx', variant', vals', hcons', hfunc, hargs, rfl⟩ := hrequired
      simp only [List.cons.injEq, Value.elem.injEq, Snap.mk.injEq, and_true] at hargs
      obtain rfl := index_of_constructorFunc hargs.1
      obtain ⟨-, rfl⟩ := hcons.unique hinj hcons'
        (predicateName_of_domainName (congrArg (·.domainName) hfunc))
      rfl
    · exact absurd ⟨_, his⟩ hnone

/-- Every element has the discriminant of a variant. -/
theorem exists_discriminant (hinj : Set.InjOn env.predicateName types) (hty : ty ∈ types)
    (hvariants : env.complexVariants ty = some variants) (hne : variants ≠ [])
    (value : Value Snap) :
    ∃ variant ∈ variants, apply env types
      (discriminantFunc (env.predicateName ty)) [value] = .int variant.discriminant := by
  have hhead := head_discriminantFunc (env.predicateName ty)
  have hrequired : ∃ result, Required env types
      (discriminantFunc (env.predicateName ty)) [value] result ∧ HasShape .int result := by
    simp only [required_discriminant hhead]
    by_cases hsome : ∃ result, DiscriminantIs env types
        (discriminantFunc (env.predicateName ty)) [value] result
    · obtain ⟨result, hresult⟩ := hsome
      refine ⟨result, .inl hresult, ?_⟩
      obtain ⟨_, _, variant, _, _, _, _, rfl⟩ := hresult
      exact ⟨_, rfl⟩
    · obtain ⟨first, rest, rfl⟩ := List.exists_cons_of_ne_nil hne
      exact ⟨.int first.discriminant, .inr ⟨hsome, ty, 0, first,
        ⟨hty, _, hvariants, rfl⟩, rfl, rfl⟩, _, rfl⟩
  -- the type of the function is the given one
  have hmem : ∀ ty' idx variant, ConsOf env types ty' idx variant →
      discriminantFunc (env.predicateName ty) =
        discriminantFunc (env.predicateName ty') → variant ∈ variants := by
    intro ty' idx variant hcons hfunc
    obtain rfl := hinj hty hcons.mem (predicateName_of_domainName (congrArg (·.domainName) hfunc))
    obtain ⟨variants', hvariants', hget⟩ := hcons.variants
    rw [hvariants, Option.some.injEq] at hvariants'
    rw [hvariants']
    exact List.mem_of_getElem? hget
  obtain ⟨result, hresult, hshape⟩ := hrequired
  rw [apply_of_head hhead (by decide)]
  have hspec := pick_spec hresult hshape
  rw [required_discriminant hhead] at hspec
  rcases hspec with hspec | ⟨-, hspec⟩
  · obtain ⟨ty', idx, variant, vals, hcons, hfunc, -, hvalue⟩ := hspec
    exact ⟨variant, hmem ty' idx variant hcons hfunc, hvalue⟩
  · obtain ⟨ty', idx, variant, hcons, hfunc, hvalue⟩ := hspec
    exact ⟨variant, hmem ty' idx variant hcons hfunc, hvalue⟩

/-- What is read from an array or a slice. -/
theorem apply_seqReadFunc (hdefault : HasShape elemTyp (default elemTyp)) (argName : String)
    (cons : DomainFunc) {elems : List (Value Snap)} (helems : ∀ elem ∈ elems, HasShape elemTyp elem)
    (index : Int) :
    apply env types (seqReadFunc predicateName elemTyp argName)
      [.elem (.mk cons [.seq elems]), .int index] = elemAt elemTyp elems index := by
  have hhead := head_seqReadFunc predicateName elemTyp argName
  have hshape : HasShape elemTyp (elemAt elemTyp elems index) := by
    unfold elemAt
    split
    · cases hget : elems[index.toNat]? with
      | none => exact hdefault
      | some elem => exact helems elem (List.mem_of_getElem? hget)
    · exact hdefault
  rw [apply_of_head hhead (by decide)]
  refine pick_eq ?_ hshape ?_
  · rw [required_read hhead]
    exact ⟨cons, elems, index, rfl, rfl⟩
  · intro value' hrequired
    rw [required_read hhead] at hrequired
    obtain ⟨cons', elems', index', hargs, rfl⟩ := hrequired
    cases hargs
    rfl

/-- The length of a slice that is made of a sequence. -/
theorem apply_sliceLenFunc (predicateName : String) (cons : DomainFunc)
    (elems : List (Value Snap)) :
    apply env types (sliceLenFunc predicateName) [.elem (.mk cons [.seq elems])] =
      .int elems.length := by
  have hhead := head_sliceLenFunc predicateName
  rw [apply_of_head hhead (by decide)]
  refine pick_eq ?_ ⟨_, rfl⟩ ?_
  · rw [required_length hhead]
    exact ⟨cons, elems, rfl, rfl⟩
  · intro value' hrequired
    rw [required_length hhead] at hrequired
    obtain ⟨cons', elems', hargs, rfl⟩ := hrequired
    cases hargs
    rfl

theorem exists_length (predicateName : String) (value : Value Snap) :
    ∃ length : Nat, apply env types (sliceLenFunc predicateName) [value] = .int length := by
  have hhead := head_sliceLenFunc predicateName
  by_cases h : ∃ cons elems, value = .elem (.mk cons [.seq elems])
  · obtain ⟨cons, elems, rfl⟩ := h
    exact ⟨_, apply_sliceLenFunc predicateName cons elems⟩
  · refine ⟨0, ?_⟩
    rw [apply_of_head hhead (by decide), pick, dif_neg]
    · rfl
    · rintro ⟨result, hrequired, -⟩
      obtain ⟨cons, elems, hargs, -⟩ := (required_length hhead).mp hrequired
      cases hargs
      exact h ⟨cons, elems, rfl⟩

/-- The terms satisfy the axioms of tuples and definitions but for the bounds. -/
theorem modelsVariants_complexVariants (hwf : env.WellFormed)
    (hinj : Set.InjOn env.predicateName types) (hty : ty ∈ types)
    (hvariants : env.complexVariants ty = some variants) :
    ModelsVariants (interp env types) variants (env.predicateName ty) := by
  have hof := variantsOf_complexVariants hwf hvariants
  have hcons : ∀ {variant idx}, variants[idx]? = some variant →
      ConsOf env types ty idx variant := fun hget =>
    ⟨hty, variants, hvariants, hget⟩
  constructor
  · intro func hfunc args hargs
    rw [hasSort_interp]
    rcases mem_functions_complexDomain.mp hfunc with
      ⟨-, rfl⟩ | ⟨variant, idx, hget, rfl | ⟨field, hfield, rfl⟩⟩
    · exact hasShape_apply ⟨0, rfl⟩ (by simp [head_discriminantFunc])
    · exact ⟨_, apply_cons (head_constructorFunc _ _ _)⟩
    · refine hasShape_apply ?_ (by simp [head_fieldAccessFunc])
      change HasShape field.typ (default field.typ)
      rw [hof.typ_eq variant (List.mem_of_getElem? hget) field hfield]
      exact hasShape_default_encodeType field.mirType
  · intro variant idx hget _
    rw [holds_injectivity_iff]
    intro left right _ _ heq
    change apply env types _ _ = apply env types _ _ at heq
    rw [apply_cons (head_constructorFunc _ _ _), apply_cons (head_constructorFunc _ _ _)] at heq
    cases heq
    rfl
  · intro _ variant idx hget
    rw [holds_discriminantAxiom_iff]
    intro vals _
    change apply env types _ [apply env types _ _] = _
    rw [apply_cons (head_constructorFunc _ _ _)]
    exact apply_discriminantFunc hinj (hcons hget) vals
  · intro variant idx hget field fieldIdx hfield
    rw [holds_fieldAxiom_iff hfield]
    intro vals hvals
    rw [fieldsSorted_interp] at hvals
    obtain ⟨value, hvalue, hshape⟩ := forall₂_getElem? hvals hfield
    change some (apply env types _ [apply env types _ _]) = _
    rw [apply_cons (head_constructorFunc _ _ _), hvalue, Option.some.injEq]
    exact apply_fieldAccessFunc hwf hinj (hcons hget) hfield hvalue hshape

/-- Without bounds, the terms satisfy the axioms of tuples and definitions. -/
theorem models_complexDomain (hwf : env.WellFormed) (hinj : Set.InjOn env.predicateName types)
    (hty : ty ∈ types) (hvariants : env.complexVariants ty = some variants)
    (hint : ∀ ty' ∈ env.fieldTypes ty, ty'.isInt = false) :
    (interp env types).Models (complexDomain variants (env.predicateName ty)) := by
  have hof := variantsOf_complexVariants hwf hvariants
  have hmodels := modelsVariants_complexVariants hwf hinj hty hvariants
  refine ⟨hmodels.sorted, forall_axioms_complexDomain.mpr ⟨fun _ => ?_, ?_⟩⟩
  · refine holds_discriminantRange fun value _ => ?_
    exact exists_discriminant hinj hty hvariants hof.ne_nil value
  · intro variant idx hget
    refine ⟨hmodels.injectivity variant idx hget,
      fun hlength => hmodels.discriminant hlength variant idx hget,
      fun field fieldIdx hfield => ⟨hmodels.field variant idx hget field fieldIdx hfield,
        fun hisInt => ?_⟩⟩
    have hmem : field.mirType ∈ env.fieldTypes ty :=
      (hof.mem_iff field.mirType).mp ⟨variant, List.mem_of_getElem? hget, field,
        List.mem_of_getElem? hfield, rfl⟩
    rw [hint field.mirType hmem] at hisInt
    cases hisInt

theorem holds_seqAxioms (predicateName : String) (hdefault : HasShape elemTyp (default elemTyp))
    (argName : String) :
    (interp env types).Holds [] (seqInjectivity predicateName elemTyp).expr ∧
      (interp env types).Holds [] (seqReadAxiom predicateName elemTyp argName).expr := by
  constructor
  · rw [holds_seqInjectivity_iff]
    intro left right _ _ heq
    change apply env types _ _ = apply env types _ _ at heq
    rw [apply_cons (head_seqConsFunc _ _), apply_cons (head_seqConsFunc _ _)] at heq
    cases heq
    rfl
  · rw [holds_seqReadAxiom_iff]
    intro elems helems index
    obtain ⟨elems', heq, helems'⟩ := hasSort_interp.mp helems
    cases heq
    change apply env types _ [apply env types _ _, _] = _
    rw [apply_cons (head_seqConsFunc _ _)]
    exact apply_seqReadFunc hdefault argName _ helems' index

theorem models_arrayDomain (hdefault : HasShape elemTyp (default elemTyp)) :
    (interp env types).Models (arrayDomain predicateName elemTyp) := by
  constructor
  · intro func hfunc args _
    rw [hasSort_interp]
    simp only [arrayDomain, List.mem_cons, List.not_mem_nil, or_false] at hfunc
    rcases hfunc with rfl | rfl
    · exact ⟨_, apply_cons (head_seqConsFunc _ _)⟩
    · exact hasShape_apply hdefault (by simp [head_seqReadFunc])
  · simp only [arrayDomain, List.mem_cons, List.not_mem_nil, or_false, forall_eq_or_imp, forall_eq]
    exact holds_seqAxioms predicateName hdefault "arr"

theorem models_sliceDomain (hdefault : HasShape elemTyp (default elemTyp)) :
    (interp env types).Models (sliceDomain predicateName elemTyp) := by
  constructor
  · intro func hfunc args _
    rw [hasSort_interp]
    simp only [sliceDomain, List.mem_cons, List.not_mem_nil, or_false] at hfunc
    rcases hfunc with rfl | rfl | rfl
    · exact ⟨_, apply_cons (head_seqConsFunc _ _)⟩
    · exact hasShape_apply hdefault (by simp [head_seqReadFunc])
    · exact hasShape_apply ⟨0, rfl⟩ (by simp [head_sliceLenFunc])
  · simp only [sliceDomain, List.mem_cons, List.not_mem_nil, or_false, forall_eq_or_imp, forall_eq]
    obtain ⟨hinjective, hread⟩ := holds_seqAxioms predicateName hdefault "self"
    refine ⟨hinjective, hread, ?_, ?_⟩
    · rw [holds_lenOfSeq_iff]
      intro elems _
      change apply env types _ [apply env types _ _] = _
      rw [apply_cons (head_seqConsFunc _ _)]
      exact apply_sliceLenFunc _ _ elems
    · exact holds_lenPositive fun value _ => exists_length _ value

end Model

end Snap

theorem fieldTypes_of_isUnit {env : TypeEnv} (h : env.isUnit ty = true) :
    env.fieldTypes ty = [] := by
  cases ty with
  | tuple elems => simpa [TypeEnv.isUnit, TypeEnv.fieldTypes] using h
  | adt name =>
    rw [TypeEnv.isUnit] at h
    rw [TypeEnv.fieldTypes]
    split at h
    · next hnil => rw [hnil]; rfl
    · next variant hone =>
        rw [List.isEmpty_iff] at h
        simp [hone, h]
    · cases h
  | _ => rfl

/-- The axioms of all the domains of a family of types, of which no two have
the same predicate, have a model exactly if no field is of an integer or
character type. -/
theorem exists_model_iff {env : TypeEnv} (hwf : env.WellFormed) {types : Set Ty}
    (hinj : Set.InjOn env.predicateName types) :
    (∃ I : Interp, I.NonemptySorts ∧ ∀ ty ∈ types, ∀ snapshot domain,
      env.encodeSnapshotInternal ty = some snapshot →
      snapshot.domain? = some domain → I.Models domain) ↔
    ∀ ty ∈ types, ∀ ty' ∈ env.fieldTypes ty, ty'.isInt = false := by
  constructor
  · rintro ⟨I, hI, hmodels⟩ ty hty ty' hty'
    by_contra hint
    rw [Bool.not_eq_false] at hint
    -- a type with a field has data
    obtain ⟨variants, hvariants⟩ : ∃ variants, env.complexVariants ty = some variants := by
      unfold TypeEnv.complexVariants
      rw [if_neg fun hunit => by simp [fieldTypes_of_isUnit hunit] at hty']
      cases ty with
      | tuple elems => exact ⟨_, rfl⟩
      | adt name => exact ⟨_, rfl⟩
      | _ => cases hty'
    have hof := variantsOf_complexVariants hwf hvariants
    obtain ⟨variant, hvariant, field, hfield, rfl⟩ := (hof.mem_iff ty').mpr hty'
    obtain ⟨idx, hget⟩ := List.mem_iff_getElem?.mp hvariant
    obtain ⟨snapshot, hsnapshot, hdomain⟩ :=
      (domain?_of_encodeSnapshotInternal hwf).mpr (.inl ⟨variants, hvariants, rfl⟩)
    exact not_models_of_isInt hI hof hget hfield hint (hmodels ty hty snapshot _ hsnapshot hdomain)
  · intro hint
    refine ⟨Snap.interp env types, Snap.nonemptySorts_interp, ?_⟩
    intro ty hty snapshot domain hsnapshot hdomain
    rcases (domain?_of_encodeSnapshotInternal hwf).mp ⟨snapshot, hsnapshot, hdomain⟩ with
      ⟨variants, hvariants, rfl⟩ | ⟨elem, length, rfl, rfl⟩ | ⟨elem, rfl, rfl⟩
    · exact Snap.models_complexDomain hwf hinj hty hvariants (hint ty hty)
    · exact Snap.models_arrayDomain (Snap.hasShape_default_encodeType elem)
    · exact Snap.models_sliceDomain (Snap.hasShape_default_encodeType elem)

namespace Witness

/-- A structure `Point` with a field of type `i32`. -/
def pointEnv : TypeEnv where
  adtDef := fun name =>
    if name = "Point" then ⟨false, [⟨"Point", 0, [⟨"x", .int .i32⟩]⟩]⟩
    else ⟨false, []⟩
  predicateName := fun ty =>
    match ty with
    | .adt name => "m_" ++ name
    | .int .i32 => "i32"
    | _ => "other"

theorem wellFormed_pointEnv : pointEnv.WellFormed where
  nodup_fields := by
    intro name variant hvariant
    unfold pointEnv at hvariant
    dsimp only at hvariant
    split at hvariant
    · rw [List.mem_singleton.mp hvariant]
      decide
    · cases hvariant
  struct_variants := by
    intro name _
    unfold pointEnv
    dsimp only
    split <;> decide

/-- The axioms of a structure with an integer field have no model. -/
theorem not_exists_model_point :
    ¬ ∃ I : Interp, I.NonemptySorts ∧
      ∀ ty ∈ ({.adt "Point", .int .i32} : Set Ty), ∀ snapshot domain,
        pointEnv.encodeSnapshotInternal ty = some snapshot →
        snapshot.domain? = some domain → I.Models domain := by
  rintro ⟨I, hI, hmodels⟩
  have hvariants : pointEnv.complexVariants (.adt "Point") =
      some (pointEnv.adtVariants "m_Point" (pointEnv.adtDef "Point")) := rfl
  have hof := variantsOf_complexVariants wellFormed_pointEnv hvariants
  have hget : (pointEnv.adtVariants "m_Point" (pointEnv.adtDef "Point"))[0]? =
      some ⟨-1, pointEnv.variantFields (argRefExpr "m_Point")
        ⟨"Point", 0, [⟨"x", .int .i32⟩]⟩, none⟩ := rfl
  exact not_models_of_isInt hI hof hget List.mem_cons_self rfl
    (hmodels (.adt "Point") (.inl rfl) _ _ rfl rfl)

/-- Lists behind boxes: the enumeration `List` has the variants `Nil` and
`Cons(&i32, Box<List>)`. -/
def listEnv : TypeEnv where
  adtDef := fun name =>
    if name = "List" then
      ⟨true, [⟨"Nil", 0, []⟩,
        ⟨"Cons", 1, [⟨"0", .ref false (.int .i32)⟩, ⟨"1", .box (.adt "List")⟩]⟩]⟩
    else ⟨false, []⟩
  predicateName := fun ty =>
    match ty with
    | .adt name => "m_" ++ name
    | .slice _ => "Slice"
    | .int .i32 => "i32"
    | _ => "other"

theorem wellFormed_listEnv : listEnv.WellFormed where
  nodup_fields := by
    intro name variant hvariant
    unfold listEnv at hvariant
    dsimp only at hvariant
    split at hvariant
    · simp only [List.mem_cons, List.not_mem_nil, or_false] at hvariant
      rcases hvariant with rfl | rfl <;> decide
    · cases hvariant
  struct_variants := by
    intro name hstruct
    unfold listEnv at hstruct ⊢
    dsimp only at hstruct ⊢
    split at hstruct
    · cases hstruct
    · next hne =>
        rw [if_neg hne]
        decide

/-- A list of references and a slice of such lists have a model. -/
theorem exists_model_list :
    ∃ I : Interp, I.NonemptySorts ∧
      ∀ ty ∈ ({.adt "List", .slice (.adt "List"), .int .i32} : Set Ty),
        ∀ snapshot domain, listEnv.encodeSnapshotInternal ty = some snapshot →
          snapshot.domain? = some domain → I.Models domain := by
  refine (exists_model_iff wellFormed_listEnv ?_).mpr ?_
  · rintro left (rfl | rfl | rfl) right (rfl | rfl | rfl) heq <;>
      first | rfl | exact absurd heq (by decide)
  · rintro ty (rfl | rfl | rfl) ty' hty'
    · simp only [TypeEnv.fieldTypes, listEnv] at hty'
      simp at hty'
      rcases hty' with rfl | rfl <;> rfl
    · cases hty'
    · cases hty'

end Witness

end Prusti.Snapshots

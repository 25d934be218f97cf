/-
Two instances of a type have the same snapshot exactly if they are structurally equal, in
every interpretation of the axioms but for the bounds of fields.
-/
import Prusti.Encoder.SnapFunctions

namespace Prusti.Snapshots

open Prusti.Vir Prusti.Lib

/-- An interpretation of the domains of a family of types. -/
structure Interprets (I : Interp) (env : TypeEnv) (types : Set Ty) : Prop where
  unit : I.HasSort unitFunc.returnType (I.func unitFunc [])
  complex : ∀ ty ∈ types, ∀ variants, env.complexVariants ty = some variants →
    ModelsVariants I variants (env.predicateName ty)
  array : ∀ elem length, Ty.array elem length ∈ types →
    I.Models (arrayDomain (env.predicateName (.array elem length)) (env.encodeType elem))
  slice : ∀ elem, Ty.slice elem ∈ types →
    I.Models (sliceDomain (env.predicateName (.slice elem)) (env.encodeType elem))

/-- The types of the components of the instances of a type. -/
def TypeEnv.components (env : TypeEnv) (ty : Ty) : List Ty :=
  match env.shape ty with
  | .int | .bool => []
  | .pointer ty' => [ty']
  | .product layout => layout.map (·.2)
  | .sum variants => variants.flatMap fun variant => variant.layout.map (·.2)
  | .seq elem _ => [elem]

/-- With a type a family contains the types of its components. -/
def TypeEnv.IsClosed (env : TypeEnv) (types : Set Ty) : Prop :=
  ∀ ty ∈ types, ∀ ty' ∈ env.components ty, ty' ∈ types

section Sorts

variable {I : Interp} {env : TypeEnv} {types : Set Ty} {ty : Ty}

theorem encodeType_of_int (h : env.shape ty = .int) : env.encodeType ty = .int :=
  encodeType_of_isInt (isInt_of_shape h)

theorem encodeType_of_bool (h : env.shape ty = .bool) : env.encodeType ty = .bool := by
  rw [eq_bool_of_shape h]
  rfl

theorem encodeType_of_pointer {ty' : Ty} (h : env.shape ty = .pointer ty') :
    env.encodeType ty = env.encodeType ty' := by
  rcases eq_pointer_of_shape h with ⟨mutable, rfl⟩ | rfl <;> rfl

theorem encodeType_of_isUnit (h : env.isUnit ty = true) :
    env.encodeType ty = .domain "UnitDomain" := by
  cases ty with
  | tuple _ | adt _ => simp only [TypeEnv.encodeType, stripRefsAndBoxes, h, if_true]
  | _ => cases h

theorem encodeType_of_components (hshape : (∃ layout, env.shape ty = .product layout) ∨
      (∃ variants, env.shape ty = .sum variants) ∨
      ∃ elem length, env.shape ty = .seq elem length)
    (hunit : env.isUnit ty = false) :
    env.encodeType ty = .snapshot (env.predicateName ty) := by
  cases ty with
  | tuple _ | adt _ | array _ _ | slice _ =>
    simp only [TypeEnv.encodeType, stripRefsAndBoxes, hunit, Bool.false_eq_true, if_false]
  | _ => simp [TypeEnv.shape] at hshape

theorem fieldsSorted_layoutFields {base : Expr} {layout : List (String × Ty)}
    {fields : List (String × HeapValue)} {vals : List (Value I.E)}
    (hlength : fields.length = layout.length)
    (h : List.Forall₂ (fun item val => I.HasSort (env.encodeType item.1.2) val)
      (layout.zip fields) vals) : FieldsSorted I (env.layoutFields base layout) vals := by
  have hlayout : (layout.zip fields).map Prod.fst = layout := List.map_fst_zip hlength.ge
  rw [FieldsSorted, TypeEnv.layoutFields, ← hlayout, List.map_map, List.forall₂_map_left_iff]
  exact h

/-- A constructor yields an element of the domain. -/
theorem hasSort_constructorFunc {variants : List SnapshotVariant} {predicateName : String}
    (hI : ModelsVariants I variants predicateName) (variant : SnapshotVariant) {idx : Nat}
    (hget : variants[idx]? = some variant) {vals : List (Value I.E)}
    (hvals : FieldsSorted I variant.fields vals) :
    I.HasSort (.snapshot predicateName)
      (I.func (constructorFunc predicateName idx variant.fields) vals) :=
  hI.sorted _ (mem_functions_complexDomain.mpr (.inr ⟨variant, idx, hget, .inl rfl⟩)) vals
    ((hasSorts_constructorArgs _ _ _).mpr hvals)

/-- The constructor of a variant is injective, also if there are no fields. -/
theorem constructorFunc_eq_iff {variants : List SnapshotVariant} {predicateName : String}
    (hI : ModelsVariants I variants predicateName) (variant : SnapshotVariant) {idx : Nat}
    (hget : variants[idx]? = some variant) {left right : List (Value I.E)}
    (hleft : FieldsSorted I variant.fields left) (hright : FieldsSorted I variant.fields right) :
    I.func (constructorFunc predicateName idx variant.fields) left =
      I.func (constructorFunc predicateName idx variant.fields) right ↔ left = right := by
  refine ⟨fun heq => ?_, fun heq => by rw [heq]⟩
  by_cases hnil : variant.fields = []
  · rw [FieldsSorted, hnil] at hleft hright
    cases hleft
    cases hright
    rfl
  · exact (holds_injectivity_iff idx variant.fields).mp
      (hI.injectivity variant idx hget hnil) left right hleft hright heq

/-- The components of a record and its layout belong together. -/
theorem component_at {layout : List (String × Ty)} {fields : List (String × HeapValue)}
    (hnames : fields.map (·.1) = layout.map (·.1)) {idx : Nat} {item : String × Ty}
    (h : layout[idx]? = some item) : ∃ x, fields[idx]? = some (item.1, x) := by
  have hname := congrArg (·[idx]?) hnames
  simp only [List.getElem?_map, h, Option.map_some, Option.map_eq_some_iff] at hname
  obtain ⟨⟨name, x⟩, hfield, rfl⟩ := hname
  exact ⟨x, hfield⟩

end Sorts

section Faithful

variable {I : Interp} {env : TypeEnv} {types : Set Ty}
  {decodeTypePredicate : String → Option Ty} (hwf : env.WellFormed)
  (hdistinct : env.DistinctVariants) (hclosed : env.IsClosed types)
  (hdecodes : Decodes env types decodeTypePredicate) (hI : Interprets I env types)
  {ty : Ty} {loc loc' : Nat} {val val' : Value I.E}

variable {layout : List (String × Ty)} {fields fields' : List (String × HeapValue)} {elem : Ty}
  {elems : List HeapValue} {idx : Nat} {variants : List VariantDef} {variant : VariantDef}
  {vals vals' : List (Value I.E)}

/-- A snapshot that is a value of the type of the snapshots. -/
abbrev IsSortedSnapshot (I : Interp) (env : TypeEnv)
    (decodeTypePredicate : String → Option Ty) (ty : Ty) (x : HeapValue) (val : Value I.E) : Prop :=
  IsSnapshot I env decodeTypePredicate ty x val ∧ I.HasSort (env.encodeType ty) val

theorem exists_componentSnapshots (hnames : fields.map (·.1) = layout.map (·.1))
    (hfields : ∀ (idx : Nat) name ty' x, layout[idx]? = some (name, ty') →
      fields[idx]? = some (name, x) →
      ∃ val, IsSortedSnapshot I env decodeTypePredicate ty' x val) (base : Expr) :
    ∃ vals, ComponentSnapshots I env decodeTypePredicate layout fields vals ∧
      FieldsSorted I (env.layoutFields base layout) vals := by
  obtain ⟨vals, hvals⟩ : ∃ vals, List.Forall₂ (fun item val =>
      IsSortedSnapshot I env decodeTypePredicate item.1.2 item.2.2 val)
      (layout.zip fields) vals := by
    refine exists_forall₂ fun item hitem => ?_
    obtain ⟨idx, hidx⟩ := List.mem_iff_getElem?.mp hitem
    obtain ⟨hlayout, hfield⟩ := List.getElem?_zip_eq_some.mp hidx
    obtain ⟨x, hx⟩ := component_at hnames hlayout
    rw [show item.2 = (item.1.1, x) from Option.some.inj (hfield.symm.trans hx)]
    exact hfields idx _ _ _ hlayout hx
  refine ⟨vals, hvals.imp fun _ _ h => h.1, ?_⟩
  exact fieldsSorted_layoutFields (by simpa using congrArg List.length hnames)
    (hvals.imp fun _ _ h => h.2)

theorem exists_elementSnapshots
    (helems : ∀ x ∈ elems, ∃ val, IsSortedSnapshot I env decodeTypePredicate elem x val) :
    ∃ vals, List.Forall₂ (IsSnapshot I env decodeTypePredicate elem) elems vals ∧
      I.HasSort (.seq (env.encodeType elem)) (.seq vals) := by
  obtain ⟨vals, hvals⟩ := exists_forall₂ helems
  refine ⟨vals, hvals.imp fun _ _ h => h.1, vals, rfl, fun val hval => ?_⟩
  obtain ⟨_, _, -, hsorted⟩ := exists_of_forall₂_mem_right hvals hval
  exact hsorted

include hclosed in
theorem mem_of_product (hty : ty ∈ types) (h : env.shape ty = .product layout) {name : String}
    {ty' : Ty} (hget : layout[idx]? = some (name, ty')) : ty' ∈ types := by
  refine hclosed ty hty ty' ?_
  rw [TypeEnv.components, h]
  exact List.mem_map.mpr ⟨_, List.mem_of_getElem? hget, rfl⟩

include hclosed in
theorem mem_of_sum (hty : ty ∈ types) (h : env.shape ty = .sum variants)
    (hvariant : variant ∈ variants) {name : String} {ty' : Ty}
    (hget : variant.layout[idx]? = some (name, ty')) :
    ty' ∈ types := by
  refine hclosed ty hty ty' ?_
  rw [TypeEnv.components, h]
  exact List.mem_flatMap.mpr ⟨variant, hvariant,
    List.mem_map.mpr ⟨_, List.mem_of_getElem? hget, rfl⟩⟩

/-- The snapshot of an instance of a sum is an element of the domain. -/
theorem hasSort_sum (hI : Interprets I env types) (hty : ty ∈ types)
    (hshape : env.shape ty = .sum variants) (hget : variants[idx]? = some variant)
    (hvals : FieldsSorted I (env.enumVariant (env.predicateName ty) variant).fields vals) :
    I.HasSort (env.encodeType ty) (I.func (constructorFunc (env.predicateName ty) idx
      (env.enumVariant (env.predicateName ty) variant).fields) vals) := by
  obtain ⟨hunit, hvariants, -⟩ :=
    complexVariants_of_sum hshape (List.ne_nil_of_mem (List.mem_of_getElem? hget))
  rw [encodeType_of_components (.inr (.inl ⟨variants, hshape⟩)) hunit]
  exact hasSort_constructorFunc (hI.complex ty hty _ hvariants) _
    (getElem?_enumVariant env hget _) hvals

include hwf hdistinct hclosed hdecodes hI in
/-- Every instance has a snapshot. -/
theorem exists_isSnapshot {x : HeapValue} (hx : HasType env ty x) (hty : ty ∈ types) :
    ∃ val, IsSortedSnapshot I env decodeTypePredicate ty x val := by
  induction hx with
  | int h =>
    refine ⟨_, settles_of_forall fun _ => snapAppValue_int h, ?_⟩
    rw [encodeType_of_int h]
    exact ⟨_, rfl⟩
  | bool h =>
    refine ⟨_, settles_of_forall fun _ => snapAppValue_bool h, ?_⟩
    rw [encodeType_of_bool h]
    exact ⟨_, rfl⟩
  | @pointer ty ty' loc x h _ ih =>
    have hmem : ty' ∈ types := hclosed ty hty ty' (by simp [TypeEnv.components, h])
    obtain ⟨val, hval, hsorted⟩ := ih hmem
    refine ⟨val, (isSnapshot_pointer_iff h).mpr hval, ?_⟩
    rw [encodeType_of_pointer h]
    exact hsorted
  | @product ty layout loc fields h hnames _ ih =>
    obtain ⟨hnil, hunit⟩ | ⟨hne, hunit, discriminant, hvariants⟩ := complexVariants_of_product hwf h
    · refine ⟨_, settles_of_forall fun _ => snapAppValue_unit hunit _, ?_⟩
      rw [encodeType_of_isUnit hunit]
      exact hI.unit
    · obtain ⟨vals, hvals, hsorted⟩ := exists_componentSnapshots hnames
        (fun idx name ty' x hlayout hfield => ih idx name ty' x hlayout hfield
          (mem_of_product hclosed hty h hlayout))
        (argRefExpr (env.predicateName ty))
      refine ⟨_, isSnapshot_record hwf hdecodes hty h hne hnames hvals, ?_⟩
      rw [encodeType_of_components (.inl ⟨layout, h⟩) hunit]
      exact hasSort_constructorFunc (hI.complex ty hty _ hvariants) ⟨discriminant, _, none⟩
        rfl hsorted
  | @sum ty variants variant loc fields h hvariant hnames _ ih =>
    obtain ⟨idx, hget⟩ := List.mem_iff_getElem?.mp hvariant
    obtain ⟨vals, hvals, hsorted⟩ := exists_componentSnapshots hnames
      (fun idx name ty' x hlayout hfield => ih idx name ty' x hlayout hfield
        (mem_of_sum hclosed hty h hvariant hlayout))
      (TypeEnv.variantBase (env.predicateName ty) variant.ident)
    exact ⟨_, isSnapshot_sum hwf hdistinct hdecodes hty h hget hnames hvals,
      hasSort_sum hI hty h hget hsorted⟩
  | @seq ty elem length loc elems h hlength _ ih =>
    have hmem : elem ∈ types := hclosed ty hty elem (by simp [TypeEnv.components, h])
    obtain ⟨vals, hvals, hsorted⟩ := exists_elementSnapshots fun x hx => ih x hx hmem
    rcases eq_seq_of_shape h with ⟨n, rfl, rfl⟩ | ⟨rfl, rfl⟩
    · exact ⟨_, isSnapshot_array hdecodes hty (hlength n rfl) hvals,
        (hI.array elem n hty).sorted _ List.mem_cons_self _ (.cons hsorted .nil)⟩
    · exact ⟨_, isSnapshot_slice hdecodes hty hvals,
        (hI.slice elem hty).sorted _ List.mem_cons_self _ (.cons hsorted .nil)⟩

/-- Records have the same components if their components are structurally equal. -/
theorem componentSnapshots_eq_iff (hnames : fields.map (·.1) = layout.map (·.1))
    (hnames' : fields'.map (·.1) = layout.map (·.1))
    (hvals : ComponentSnapshots I env decodeTypePredicate layout fields vals)
    (hvals' : ComponentSnapshots I env decodeTypePredicate layout fields' vals')
    (heq : ∀ (idx : Nat) name ty' x y, layout[idx]? = some (name, ty') →
      fields[idx]? = some (name, x) → fields'[idx]? = some (name, y) → ∀ val val',
        IsSnapshot I env decodeTypePredicate ty' x val →
        IsSnapshot I env decodeTypePredicate ty' y val' →
        (val = val' ↔ StructEq env ty' x y)) :
    vals = vals' ↔ ∀ (idx : Nat) name ty' x y, layout[idx]? = some (name, ty') →
      fields[idx]? = some (name, x) → fields'[idx]? = some (name, y) → StructEq env ty' x y := by
  have hget : ∀ {fields : List (String × HeapValue)} {vals : List (Value I.E)},
      ComponentSnapshots I env decodeTypePredicate layout fields vals →
      ∀ {idx : Nat} {name ty' x}, layout[idx]? = some (name, ty') →
        fields[idx]? = some (name, x) → ∃ val, vals[idx]? = some val ∧
          IsSnapshot I env decodeTypePredicate ty' x val := by
    intro fields vals h idx name ty' x hlayout hfield
    have hitem : (layout.zip fields)[idx]? = some ((name, ty'), (name, x)) :=
      List.getElem?_zip_eq_some.mpr ⟨hlayout, hfield⟩
    exact forall₂_getElem? h hitem
  constructor
  · rintro rfl idx name ty' x y hlayout hfield hfield'
    obtain ⟨val, hval, his⟩ := hget hvals hlayout hfield
    obtain ⟨val', hval', his'⟩ := hget hvals' hlayout hfield'
    rw [hval, Option.some.injEq] at hval'
    exact (heq idx name ty' x y hlayout hfield hfield' val val' his his').mp hval'
  · intro hstruct
    have hlength : ∀ {fields : List (String × HeapValue)} {vals : List (Value I.E)},
        fields.map (·.1) = layout.map (·.1) →
        ComponentSnapshots I env decodeTypePredicate layout fields vals →
        vals.length = layout.length := by
      intro fields vals hnames h
      have hfields : fields.length = layout.length := by
        simpa using congrArg List.length hnames
      simpa [hfields] using h.length_eq.symm
    refine List.ext_getElem? fun idx => ?_
    cases hlayout : layout[idx]? with
    | none =>
      rw [List.getElem?_eq_none_iff] at hlayout
      rw [List.getElem?_eq_none (by rwa [hlength hnames hvals]),
        List.getElem?_eq_none (by rwa [hlength hnames' hvals'])]
    | some item =>
      obtain ⟨x, hfield⟩ := component_at hnames hlayout
      obtain ⟨y, hfield'⟩ := component_at hnames' hlayout
      obtain ⟨val, hval, his⟩ := hget hvals hlayout hfield
      obtain ⟨val', hval', his'⟩ := hget hvals' hlayout hfield'
      rw [hval, hval', Option.some.injEq]
      exact (heq idx item.1 item.2 x y hlayout hfield hfield' val val' his his').mpr
        (hstruct idx item.1 item.2 x y hlayout hfield hfield')

/-- Elements that are made by the constructors of different variants differ. -/
theorem constructorFunc_ne {variants : List SnapshotVariant} {predicateName : String}
    (hI : ModelsVariants I variants predicateName) (left right : SnapshotVariant) {idx' : Nat}
    (hleft : variants[idx]? = some left) (hright : variants[idx']? = some right)
    (hne : left.discriminant ≠ right.discriminant) (hvals : FieldsSorted I left.fields vals)
    (hvals' : FieldsSorted I right.fields vals') :
    I.func (constructorFunc predicateName idx left.fields) vals ≠
      I.func (constructorFunc predicateName idx' right.fields) vals' := by
  intro heq
  have hidx : idx ≠ idx' := by
    rintro rfl
    rw [hleft, Option.some.injEq] at hright
    exact hne (congrArg (·.discriminant) hright)
  have hlength : 1 < variants.length := by
    have hlt := (List.getElem?_eq_some_iff.mp hleft).1
    have hlt' := (List.getElem?_eq_some_iff.mp hright).1
    omega
  have hdiscriminant := (holds_discriminantAxiom_iff idx left).mp
    (hI.discriminant hlength left idx hleft) vals hvals
  have hdiscriminant' := (holds_discriminantAxiom_iff idx' right).mp
    (hI.discriminant hlength right idx' hright) vals' hvals'
  rw [heq, hdiscriminant', Value.int.injEq] at hdiscriminant
  exact hne hdiscriminant.symm

include hwf hdistinct hclosed hdecodes hI in
theorem exists_recordSnapshots (hty : ty ∈ types) (hshape : env.shape ty = .product layout)
    (hx : HasType env ty (.record loc fields)) :
    fields.map (·.1) = layout.map (·.1) ∧
      ∃ vals, ComponentSnapshots I env decodeTypePredicate layout fields vals ∧
        FieldsSorted I (env.layoutFields (argRefExpr (env.predicateName ty)) layout)
          vals := by
  cases hx with
  | pointer h _ => rw [hshape] at h; cases h
  | product h hnames hfields =>
    rw [hshape] at h
    cases h
    refine ⟨hnames, exists_componentSnapshots hnames (fun idx name ty' x hlayout hfield => ?_) _⟩
    exact exists_isSnapshot hwf hdistinct hclosed hdecodes hI
      (hfields idx name ty' x hlayout hfield) (mem_of_product hclosed hty hshape hlayout)

include hwf hdistinct hclosed hdecodes hI in
theorem exists_variantSnapshots (hty : ty ∈ types) (hshape : env.shape ty = .sum variants)
    (hvariant : variant ∈ variants) (hnames : fields.map (·.1) = variant.layout.map (·.1))
    (hfields : ∀ (idx : Nat) name ty' x, variant.layout[idx]? = some (name, ty') →
      fields[idx]? = some (name, x) → HasType env ty' x) :
    ∃ vals, ComponentSnapshots I env decodeTypePredicate variant.layout fields vals ∧
      FieldsSorted I (env.enumVariant (env.predicateName ty) variant).fields vals := by
  refine exists_componentSnapshots hnames (fun idx name ty' x hlayout hfield => ?_) _
  exact exists_isSnapshot hwf hdistinct hclosed hdecodes hI
    (hfields idx name ty' x hlayout hfield) (mem_of_sum hclosed hty hshape hvariant hlayout)

include hwf hdistinct hclosed hdecodes hI in
/-- Two records have the same snapshot exactly if their components are structurally
equal. -/
theorem isSnapshot_record_eq_iff (hty : ty ∈ types) (hshape : env.shape ty = .product layout)
    (hx : HasType env ty (.record loc fields)) (hy : HasType env ty (.record loc' fields'))
    (heq : ∀ (idx : Nat) name ty' x y, layout[idx]? = some (name, ty') →
      fields[idx]? = some (name, x) → fields'[idx]? = some (name, y) → ∀ val val',
        IsSnapshot I env decodeTypePredicate ty' x val →
        IsSnapshot I env decodeTypePredicate ty' y val' →
        (val = val' ↔ StructEq env ty' x y))
    (hval : IsSnapshot I env decodeTypePredicate ty (.record loc fields) val)
    (hval' : IsSnapshot I env decodeTypePredicate ty (.record loc' fields') val') :
    val = val' ↔ StructEq env ty (.record loc fields) (.record loc' fields') := by
  obtain ⟨hnames, vals, hvals, hsorted⟩ :=
    exists_recordSnapshots hwf hdistinct hclosed hdecodes hI hty hshape hx
  obtain ⟨hnames', vals', hvals', hsorted'⟩ :=
    exists_recordSnapshots hwf hdistinct hclosed hdecodes hI hty hshape hy
  have hiff := componentSnapshots_eq_iff hnames hnames' hvals hvals' heq
  have hstruct : StructEq env ty (.record loc fields) (.record loc' fields') ↔
      ∀ (idx : Nat) name ty' x y, layout[idx]? = some (name, ty') →
        fields[idx]? = some (name, x) → fields'[idx]? = some (name, y) → StructEq env ty' x y := by
    refine ⟨fun h => ?_, fun h => .product hshape h⟩
    cases h with
    | pointer h _ => rw [hshape] at h; cases h
    | product h hfields =>
      rw [hshape] at h
      cases h
      exact hfields
  rw [hstruct, ← hiff]
  obtain ⟨rfl, hunit⟩ | ⟨hne, hunit, discriminant, hvariants⟩ :=
    complexVariants_of_product hwf hshape
  · obtain rfl := hval.unique (settles_of_forall fun _ => snapAppValue_unit hunit _)
    obtain rfl := hval'.unique (settles_of_forall fun _ => snapAppValue_unit hunit _)
    cases hvals
    cases hvals'
    simp
  · obtain rfl := hval.unique (isSnapshot_record hwf hdecodes hty hshape hne hnames hvals)
    obtain rfl := hval'.unique (isSnapshot_record hwf hdecodes hty hshape hne hnames' hvals')
    exact constructorFunc_eq_iff (hI.complex ty hty _ hvariants) ⟨discriminant, _, none⟩ rfl
      hsorted hsorted'

include hwf hdistinct hclosed hdecodes hI in
/-- Two instances of an enumeration have the same snapshot exactly if they have the same
variant and their components are structurally equal. -/
theorem isSnapshot_sum_eq_iff (hty : ty ∈ types) (hshape : env.shape ty = .sum variants)
    {left right : VariantDef} (hleft : left ∈ variants) (hright : right ∈ variants)
    (hnames : fields.map (·.1) = left.layout.map (·.1))
    (hnames' : fields'.map (·.1) = right.layout.map (·.1))
    (hfields : ∀ (idx : Nat) name ty' x, left.layout[idx]? = some (name, ty') →
      fields[idx]? = some (name, x) → HasType env ty' x)
    (hfields' : ∀ (idx : Nat) name ty' x, right.layout[idx]? = some (name, ty') →
      fields'[idx]? = some (name, x) → HasType env ty' x)
    (heq : left = right → ∀ (idx : Nat) name ty' x y, left.layout[idx]? = some (name, ty') →
      fields[idx]? = some (name, x) → fields'[idx]? = some (name, y) → ∀ val val',
        IsSnapshot I env decodeTypePredicate ty' x val →
        IsSnapshot I env decodeTypePredicate ty' y val' →
        (val = val' ↔ StructEq env ty' x y))
    (hval : IsSnapshot I env decodeTypePredicate ty
      (.sum loc left.discriminant left.ident fields) val)
    (hval' : IsSnapshot I env decodeTypePredicate ty
      (.sum loc' right.discriminant right.ident fields') val') :
    val = val' ↔ StructEq env ty (.sum loc left.discriminant left.ident fields)
      (.sum loc' right.discriminant right.ident fields') := by
  obtain ⟨vals, hvals, hsorted⟩ := exists_variantSnapshots hwf hdistinct hclosed hdecodes hI
    hty hshape hleft hnames hfields
  obtain ⟨vals', hvals', hsorted'⟩ := exists_variantSnapshots hwf hdistinct hclosed hdecodes
    hI hty hshape hright hnames' hfields'
  obtain ⟨-, hvariants, name, -, hdef⟩ := complexVariants_of_sum hshape (List.ne_nil_of_mem hleft)
  have hmodels := hI.complex ty hty _ hvariants
  have hinj := List.inj_on_of_nodup_map (hdistinct.nodup_discriminants name)
  rw [← hdef] at hinj
  obtain ⟨idx, hget⟩ := List.mem_iff_getElem?.mp hleft
  obtain rfl := hval.unique (isSnapshot_sum hwf hdistinct hdecodes hty hshape hget hnames hvals)
  by_cases hsame : left = right
  · subst hsame
    obtain rfl := hval'.unique
      (isSnapshot_sum hwf hdistinct hdecodes hty hshape hget hnames' hvals')
    refine (constructorFunc_eq_iff hmodels _ (getElem?_enumVariant env hget _) hsorted
      hsorted').trans ?_
    rw [componentSnapshots_eq_iff hnames hnames' hvals hvals' (heq rfl)]
    refine ⟨fun h => .sum hshape hleft h, fun h => ?_⟩
    generalize hd : left.discriminant = d at h
    generalize hi : left.ident = i at h
    cases h with
    | @sum _ _ variant _ _ _ _ h hvariant hfields =>
      rw [hshape] at h
      cases h
      obtain rfl := hinj hleft hvariant hd
      exact hfields
  · obtain ⟨idx', hget'⟩ := List.mem_iff_getElem?.mp hright
    obtain rfl := hval'.unique
      (isSnapshot_sum hwf hdistinct hdecodes hty hshape hget' hnames' hvals')
    have hne : left.discriminant ≠ right.discriminant := fun h =>
      hsame (hinj hleft hright h)
    refine iff_of_false (constructorFunc_ne hmodels _ _ (getElem?_enumVariant env hget _)
      (getElem?_enumVariant env hget' _) hne hsorted hsorted') fun h => ?_
    generalize left.discriminant = d, left.ident = i, right.discriminant = d',
      right.ident = i' at h hne
    cases h
    exact hne rfl

section Inversion

variable {y : HeapValue} (hy : HasType env ty y)

include hy

theorem HasType.exists_int (h : env.shape ty = .int) : ∃ loc n, y = .int loc n := by
  cases hy with
  | int _ => exact ⟨_, _, rfl⟩
  | bool h' | pointer h' | product h' | sum h' | seq h' => rw [h] at h'; cases h'

theorem HasType.exists_bool (h : env.shape ty = .bool) : ∃ loc b, y = .bool loc b := by
  cases hy with
  | bool _ => exact ⟨_, _, rfl⟩
  | int h' | pointer h' | product h' | sum h' | seq h' => rw [h] at h'; cases h'

theorem HasType.exists_pointer {ty' : Ty} (h : env.shape ty = .pointer ty') :
    ∃ loc y', y = .record loc [("val_ref", y')] ∧ HasType env ty' y' := by
  cases hy with
  | pointer h' hy' =>
    rw [h] at h'
    cases h'
    exact ⟨_, _, rfl, hy'⟩
  | int h' | bool h' | product h' | sum h' | seq h' => rw [h] at h'; cases h'

theorem HasType.exists_record {layout : List (String × Ty)}
    (h : env.shape ty = .product layout) : ∃ loc fields, y = .record loc fields := by
  cases hy with
  | product _ => exact ⟨_, _, rfl⟩
  | int h' | bool h' | pointer h' | sum h' | seq h' => rw [h] at h'; cases h'

theorem HasType.exists_sum {variants : List VariantDef} (h : env.shape ty = .sum variants) :
    ∃ loc, ∃ variant ∈ variants, ∃ fields : List (String × HeapValue),
      y = .sum loc variant.discriminant variant.ident fields ∧
      fields.map (·.1) = variant.layout.map (·.1) ∧
      ∀ (idx : Nat) name ty' x, variant.layout[idx]? = some (name, ty') →
        fields[idx]? = some (name, x) → HasType env ty' x := by
  cases hy with
  | sum h' hvariant hnames hfields =>
    rw [h] at h'
    cases h'
    exact ⟨_, _, hvariant, _, rfl, hnames, hfields⟩
  | int h' | bool h' | pointer h' | product h' | seq h' => rw [h] at h'; cases h'

theorem HasType.exists_list {elem : Ty} {length : Option Nat}
    (h : env.shape ty = .seq elem length) :
    ∃ loc elems, y = .list loc elems ∧ (∀ n ∈ length, elems.length = n) ∧
      ∀ x ∈ elems, HasType env elem x := by
  cases hy with
  | seq h' hlength helems =>
    rw [h] at h'
    cases h'
    exact ⟨_, _, rfl, hlength, helems⟩
  | int h' | bool h' | pointer h' | product h' | sum h' => rw [h] at h'; cases h'

end Inversion

theorem elementSnapshots_eq_iff {elems' : List HeapValue}
    (hvals : List.Forall₂ (IsSnapshot I env decodeTypePredicate elem) elems vals)
    (hvals' : List.Forall₂ (IsSnapshot I env decodeTypePredicate elem) elems' vals')
    (heq : ∀ x ∈ elems, ∀ y ∈ elems', ∀ val val',
      IsSnapshot I env decodeTypePredicate elem x val →
      IsSnapshot I env decodeTypePredicate elem y val' →
      (val = val' ↔ StructEq env elem x y)) :
    vals = vals' ↔ elems.length = elems'.length ∧ ∀ (idx : Nat) x y, elems[idx]? = some x →
      elems'[idx]? = some y → StructEq env elem x y := by
  constructor
  · rintro rfl
    refine ⟨hvals.length_eq.trans hvals'.length_eq.symm, fun idx x y hx hy => ?_⟩
    obtain ⟨val, hval, his⟩ := forall₂_getElem? hvals hx
    obtain ⟨val', hval', his'⟩ := forall₂_getElem? hvals' hy
    rw [hval, Option.some.injEq] at hval'
    exact (heq x (List.mem_of_getElem? hx) y (List.mem_of_getElem? hy) val val' his his').mp hval'
  · rintro ⟨hlength, hstruct⟩
    refine List.ext_getElem? fun idx => ?_
    cases hx : elems[idx]? with
    | none =>
      rw [List.getElem?_eq_none_iff] at hx
      rw [List.getElem?_eq_none (by rwa [← hvals.length_eq]),
        List.getElem?_eq_none (by rwa [← hvals'.length_eq, ← hlength])]
    | some x =>
      obtain ⟨y, hy⟩ : ∃ y, elems'[idx]? = some y := by
        have hlt := (List.getElem?_eq_some_iff.mp hx).1
        exact ⟨_, List.getElem?_eq_getElem (hlength ▸ hlt)⟩
      obtain ⟨val, hval, his⟩ := forall₂_getElem? hvals hx
      obtain ⟨val', hval', his'⟩ := forall₂_getElem? hvals' hy
      rw [hval, hval', Option.some.injEq]
      exact (heq x (List.mem_of_getElem? hx) y (List.mem_of_getElem? hy) val val' his
        his').mpr (hstruct idx x y hx hy)

include hwf hdistinct hclosed hdecodes hI in
/-- Two arrays or slices have the same snapshot exactly if they have structurally equal
elements. -/
theorem isSnapshot_list_eq_iff (hty : ty ∈ types) {length : Option Nat}
    (hshape : env.shape ty = .seq elem length) {elems' : List HeapValue}
    (hlength : ∀ n ∈ length, elems.length = n) (hlength' : ∀ n ∈ length, elems'.length = n)
    (helems : ∀ x ∈ elems, HasType env elem x) (helems' : ∀ x ∈ elems', HasType env elem x)
    (heq : ∀ x ∈ elems, ∀ y ∈ elems', ∀ val val',
      IsSnapshot I env decodeTypePredicate elem x val →
      IsSnapshot I env decodeTypePredicate elem y val' →
      (val = val' ↔ StructEq env elem x y))
    (hval : IsSnapshot I env decodeTypePredicate ty (.list loc elems) val)
    (hval' : IsSnapshot I env decodeTypePredicate ty (.list loc' elems') val') :
    val = val' ↔ StructEq env ty (.list loc elems) (.list loc' elems') := by
  have hmem : elem ∈ types := hclosed ty hty elem (by simp [TypeEnv.components, hshape])
  have hexists := fun x (hx : HasType env elem x) =>
    exists_isSnapshot hwf hdistinct hclosed hdecodes hI hx hmem
  obtain ⟨vals, hvals, hsorted⟩ := exists_elementSnapshots fun x hx => hexists x (helems x hx)
  obtain ⟨vals', hvals', hsorted'⟩ := exists_elementSnapshots fun x hx => hexists x (helems' x hx)
  have hstruct : StructEq env ty (.list loc elems) (.list loc' elems') ↔
      elems.length = elems'.length ∧ ∀ (idx : Nat) x y, elems[idx]? = some x →
        elems'[idx]? = some y → StructEq env elem x y := by
    refine ⟨fun h => ?_, fun h => .seq hshape h.1 h.2⟩
    cases h with
    | seq h hlength helems =>
      rw [hshape] at h
      cases h
      exact ⟨hlength, helems⟩
  rw [hstruct, ← elementSnapshots_eq_iff hvals hvals' heq]
  -- the constructor is injective
  have hcons : ∀ predicateName, I.Holds [] (seqInjectivity predicateName
      (env.encodeType elem)).expr →
      (I.func (seqConsFunc predicateName (env.encodeType elem)) [.seq vals] =
        I.func (seqConsFunc predicateName (env.encodeType elem)) [.seq vals'] ↔ vals = vals') := by
    intro predicateName h
    refine ⟨fun heq => ?_, fun heq => by rw [heq]⟩
    exact Value.seq.inj (holds_seqInjectivity_iff.mp h _ _ hsorted hsorted' heq)
  rcases eq_seq_of_shape hshape with ⟨n, rfl, rfl⟩ | ⟨rfl, rfl⟩
  · obtain rfl := hval.unique (isSnapshot_array hdecodes hty (hlength n rfl) hvals)
    obtain rfl := hval'.unique (isSnapshot_array hdecodes hty (hlength' n rfl) hvals')
    exact hcons _ ((hI.array elem n hty).holds _ List.mem_cons_self)
  · obtain rfl := hval.unique (isSnapshot_slice hdecodes hty hvals)
    obtain rfl := hval'.unique (isSnapshot_slice hdecodes hty hvals')
    exact hcons _ ((hI.slice elem hty).holds _ List.mem_cons_self)

include hwf hdistinct hclosed hdecodes hI in
/-- Two instances have the same snapshot exactly if they are structurally equal. -/
theorem isSnapshot_eq_iff {x y : HeapValue} (hx : HasType env ty x) (hty : ty ∈ types)
    (hy : HasType env ty y) (hval : IsSnapshot I env decodeTypePredicate ty x val)
    (hval' : IsSnapshot I env decodeTypePredicate ty y val') :
    val = val' ↔ StructEq env ty x y := by
  induction hx generalizing y val val' with
  | int h =>
    obtain ⟨loc, n, rfl⟩ := hy.exists_int h
    obtain rfl := hval.unique (settles_of_forall fun _ => snapAppValue_int h)
    obtain rfl := hval'.unique (settles_of_forall fun _ => snapAppValue_int h)
    constructor
    · intro heq
      cases heq
      exact .int h
    · intro heq
      cases heq
      rfl
  | bool h =>
    obtain ⟨loc, b, rfl⟩ := hy.exists_bool h
    obtain rfl := hval.unique (settles_of_forall fun _ => snapAppValue_bool h)
    obtain rfl := hval'.unique (settles_of_forall fun _ => snapAppValue_bool h)
    constructor
    · intro heq
      cases heq
      exact .bool h
    · intro heq
      cases heq
      rfl
  | @pointer ty ty' loc x h _ ih =>
    obtain ⟨loc', y', rfl, hy'⟩ := hy.exists_pointer h
    have hmem : ty' ∈ types := hclosed ty hty ty' (by simp [TypeEnv.components, h])
    rw [ih hmem hy' ((isSnapshot_pointer_iff h).mp hval) ((isSnapshot_pointer_iff h).mp hval')]
    refine ⟨.pointer h, fun heq => ?_⟩
    cases heq with
    | pointer h' hxy =>
      rw [h] at h'
      cases h'
      exact hxy
    | product h' _ => rw [h] at h'; cases h'
  | @product ty layout loc fields h hnames hfields ih =>
    obtain ⟨loc', fields', rfl⟩ := hy.exists_record h
    refine isSnapshot_record_eq_iff hwf hdistinct hclosed hdecodes hI hty h
      (.product h hnames hfields) hy ?_ hval hval'
    intro idx name ty' x y hlayout hfield hfield' val val' his his'
    refine ih idx name ty' x hlayout hfield (mem_of_product hclosed hty h hlayout) ?_ his his'
    cases hy with
    | pointer h' => rw [h] at h'; cases h'
    | product h' _ hfields' =>
      rw [h] at h'
      cases h'
      exact hfields' idx name ty' y hlayout hfield'
  | @sum ty variants variant loc fields h hvariant hnames hfields ih =>
    obtain ⟨loc', variant', hvariant', fields', rfl, hnames', hfields'⟩ := hy.exists_sum h
    refine isSnapshot_sum_eq_iff hwf hdistinct hclosed hdecodes hI hty h hvariant hvariant'
      hnames hnames' hfields hfields' ?_ hval hval'
    rintro rfl idx name ty' x y hlayout hfield hfield' val val' his his'
    exact ih idx name ty' x hlayout hfield (mem_of_sum hclosed hty h hvariant hlayout)
      (hfields' idx name ty' y hlayout hfield') his his'
  | @seq ty elem length loc elems h hlength helems ih =>
    obtain ⟨loc', elems', rfl, hlength', helems'⟩ := hy.exists_list h
    have hmem : elem ∈ types := hclosed ty hty elem (by simp [TypeEnv.components, h])
    refine isSnapshot_list_eq_iff hwf hdistinct hclosed hdecodes hI hty h hlength hlength'
      helems helems' ?_ hval hval'
    intro x hx y hy val val' his his'
    exact ih x hx hmem (helems' y hy) his his'

end Faithful

end Prusti.Snapshots

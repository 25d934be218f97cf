/-
What is read from the snapshot of an instance: its discriminant, and the snapshots of its
components.  Together with the equality of snapshots this says that they represent the
values faithfully.
-/
import Prusti.Encoder.FaithfulSnapshots

namespace Prusti.Snapshots

open Prusti.Vir Prusti.Lib

section Reading

variable {I : Interp} {env : TypeEnv} {types : Set Ty}
  {decodeTypePredicate : String → Option Ty} {ty : Ty}

theorem get?_fieldAccessFuncs (predicateName : String) (variant : SnapshotVariant) (idx : Nat)
    (hnodup : (variant.fields.map (·.name)).Nodup) {field : SnapshotField}
    (h : field ∈ variant.fields) :
    (fieldAccessFuncs predicateName (variant, idx)).get? field.name =
      some (fieldAccessFunc predicateName idx field) := by
  have heq : fieldAccessFuncs predicateName (variant, idx) =
      HashMap.ofList (variant.fields.map fun field =>
        (field.name, fieldAccessFunc predicateName idx field)) := by
    rw [fieldAccessFuncs, HashMap.ofList, List.foldl_map]
  have hpairwise : (variant.fields.map fun field =>
      (field.name, fieldAccessFunc predicateName idx field)).Pairwise
        fun left right => (left.1 == right.1) = false := by
    rw [List.pairwise_map]
    rw [List.Nodup, List.pairwise_map] at hnodup
    exact hnodup.imp fun hne => beq_false_of_ne hne
  rw [heq, HashMap.get?_ofList hpairwise]
  exact lookup_of_mem hpairwise (List.mem_map_of_mem h) (beq_self_eq_true _)

theorem get?_variantNames {variants : List VariantDef} {variantOf : VariantDef → SnapshotVariant}
    (hname : ∀ variant, (variantOf variant).name = some variant.ident)
    (hnodup : (variants.map (·.ident)).Nodup) {variant : VariantDef} {idx : Nat}
    (hget : variants[idx]? = some variant) :
    (variantNames (variants.map variantOf)).get? variant.ident = some idx := by
  have heq : variantNames (variants.map variantOf) =
      HashMap.ofList (variants.zipIdx.map fun item => (item.1.ident, item.2)) := by
    rw [variantNames, HashMap.ofList, List.zipIdx_map, List.foldl_map, List.foldl_map]
    simp only [hname, Prod.map]
    rfl
  have hpairwise : (variants.zipIdx.map fun item => (item.1.ident, item.2)).Pairwise
      fun left right => (left.1 == right.1) = false := by
    have hmap : variants.zipIdx.map (·.1.ident) = variants.map (·.ident) :=
      List.ext_getElem (by simp) (by simp)
    rw [← hmap, List.Nodup, List.pairwise_map] at hnodup
    rw [List.pairwise_map]
    exact hnodup.imp fun hne => beq_false_of_ne hne
  rw [heq, HashMap.get?_ofList hpairwise]
  have hmem := List.mem_map_of_mem (f := fun item : VariantDef × Nat =>
    (item.1.ident, item.2)) (List.mk_mem_zipIdx_iff_getElem?.mpr hget)
  exact lookup_of_mem hpairwise hmem (beq_self_eq_true _)

/-- The snapshot of a tuple or a definition is found under the name of its predicate. -/
theorem exists_decodeSnapshot (hdecodes : Decodes env types decodeTypePredicate)
    (hty : ty ∈ types) {variants : List SnapshotVariant} (hne : variants ≠ [])
    (hvariants : env.complexVariants ty = some variants) :
    ∃ snapshot, env.decodeSnapshot decodeTypePredicate (.snapshot (env.predicateName ty)) =
        some (.complex snapshot) ∧
      snapshot.discriminantFunc = discriminantFunc (env.predicateName ty) ∧
      snapshot.variantNames = variantNames variants ∧
      ∀ variant idx, variants[idx]? = some variant →
        snapshot.variants[idx]? = some (constructorFunc (env.predicateName ty) idx
          variant.fields, fieldAccessFuncs (env.predicateName ty) (variant, idx)) := by
  obtain ⟨body, hbody⟩ : ∃ body, complexSnapBody (env.predicateName ty) variants = some body := by
    match variants, hne with
    | first :: rest, _ => exact ⟨_, rfl⟩
  let snapshot : ComplexSnapshot :=
    { predicateName := env.predicateName ty
      domain := complexDomain variants (env.predicateName ty)
      discriminantFunc := discriminantFunc (env.predicateName ty)
      snapFunc := snapFunction (env.predicateName ty) [] body
      variants := variants.zipIdx.map fun item =>
        (constructorFunc (env.predicateName ty) item.2 item.1.fields,
          fieldAccessFuncs (env.predicateName ty) item)
      variantNames := variantNames variants }
  have hcomplex : encodeComplex variants (env.predicateName ty) = some snapshot :=
    Option.bind_eq_some_iff.mpr ⟨body, hbody, rfl⟩
  have hinternal : env.encodeSnapshotInternal ty = some (.complex snapshot) := by
    cases ty with
    | tuple _ | adt _ =>
      simp only [TypeEnv.encodeSnapshotInternal, hvariants, hcomplex, Option.map_some]
    | _ => simp [TypeEnv.complexVariants, TypeEnv.isUnit] at hvariants
  obtain ⟨ty', hdecode, hsame⟩ := hdecodes ty hty
  have hinternal' := hsame.internal.trans hinternal
  -- a type with a snapshot of its own is no reference and no box
  have hstrip : stripRefsAndBoxes ty' = ty' := by
    cases ty' with
    | ref _ _ | box _ => cases hinternal'
    | _ => rfl
  refine ⟨snapshot, ?_, rfl, rfl, fun variant idx hget => ?_⟩
  · rw [TypeEnv.decodeSnapshot, hdecode, Option.bind_some, hstrip, hinternal']
  · simp [snapshot, hget]

/-- What is read from the snapshot of an instance: its discriminant, and the snapshots of
its components. -/
structure ReadsComponents (I : Interp) (env : TypeEnv)
    (decodeTypePredicate : String → Option Ty) (ty : Ty) (x : HeapValue)
    (expr : Expr) (calls : I.Calls) (vars : I.Env) : Prop where
  discriminant : ∀ loc discriminant variant fields,
    x = .sum loc discriminant variant fields →
    ∃ read, env.snapField decodeTypePredicate expr ⟨"discriminant", .int⟩ = some read ∧
      I.value calls vars read = some (.int discriminant)
  field : ∀ layout loc fields, env.shape ty = .product layout → x = .record loc fields →
    ∀ (idx : Nat) name ty' x', layout[idx]? = some (name, ty') →
      fields[idx]? = some (name, x') → ∀ typ,
      ∃ read val, env.snapField decodeTypePredicate expr ⟨name, typ⟩ = some read ∧
        I.value calls vars read = some val ∧
        IsSnapshot I env decodeTypePredicate ty' x' val
  variantField : ∀ variants variant loc fields, env.shape ty = .sum variants →
    variant ∈ variants → x = .sum loc variant.discriminant variant.ident fields →
    ∀ (idx : Nat) name ty' x', variant.layout[idx]? = some (name, ty') →
      fields[idx]? = some (name, x') → ∀ variantTyp typ,
      ∃ read val, env.snapVariantField decodeTypePredicate expr
          ⟨"enum_" ++ variant.ident, variantTyp⟩ ⟨name, typ⟩ = some read ∧
        I.value calls vars read = some val ∧
        IsSnapshot I env decodeTypePredicate ty' x' val

/-- The access function of a field yields the snapshot of the component. -/
theorem value_fieldAccess {variants : List SnapshotVariant} {predicateName : String}
    (hI : ModelsVariants I variants predicateName) (variant : SnapshotVariant) {idx : Nat}
    (hget : variants[idx]? = some variant) {base : Expr} {layout : List (String × Ty)}
    (hvariant : variant.fields = env.layoutFields base layout)
    {fields : List (String × HeapValue)} {vals : List (Value I.E)}
    (hvals : ComponentSnapshots I env decodeTypePredicate layout fields vals)
    (hsorted : FieldsSorted I variant.fields vals) {fieldIdx : Nat} {name : String}
    {ty' : Ty} {x' : HeapValue} (hlayout : layout[fieldIdx]? = some (name, ty'))
    (hfield : fields[fieldIdx]? = some (name, x')) {expr : Expr} {calls : I.Calls}
    {vars : I.Env} (hexpr : I.value calls vars expr =
      some (I.func (constructorFunc predicateName idx variant.fields) vals)) :
    ∃ val, I.value calls vars ((fieldAccessFunc predicateName idx
        (env.snapshotField base name ty')).apply [expr]) = some val ∧
      IsSnapshot I env decodeTypePredicate ty' x' val := by
  have hitem : (layout.zip fields)[fieldIdx]? = some ((name, ty'), (name, x')) :=
    List.getElem?_zip_eq_some.mpr ⟨hlayout, hfield⟩
  obtain ⟨val, hval, his⟩ := forall₂_getElem? hvals hitem
  have hfieldAt : variant.fields[fieldIdx]? = some (env.snapshotField base name ty') := by
    rw [hvariant, TypeEnv.layoutFields, List.getElem?_map, hlayout]
    rfl
  have haccess := (holds_fieldAxiom_iff hfieldAt).mp
    (hI.field variant idx hget _ fieldIdx hfieldAt) vals hsorted
  rw [hval, Option.some.injEq] at haccess
  refine ⟨val, ?_, his⟩
  rw [Interp.value_apply (Interp.values_singleton hexpr), haccess]

theorem stripEnum_append (ident : String) : stripEnum ("enum_" ++ ident) = some ident := by
  have hlist : ("enum_" ++ ident).toList = 'e' :: 'n' :: 'u' :: 'm' :: '_' :: ident.toList := by
    rw [String.toList_append]
    rfl
  simp [stripEnum, hlist]

/-- Reading a snapshot yields the discriminant and the snapshots of the components. -/
theorem readsComponents (hwf : env.WellFormed) (hdistinct : env.DistinctVariants)
    (hclosed : env.IsClosed types) (hdecodes : Decodes env types decodeTypePredicate)
    (hI : Interprets I env types) {x : HeapValue} (hx : HasType env ty x) (hty : ty ∈ types)
    {val : Value I.E} (hval : IsSnapshot I env decodeTypePredicate ty x val) {expr : Expr}
    (htype : expr.getType = some (.snapshot (env.predicateName ty))) {calls : I.Calls}
    {vars : I.Env} (hexpr : I.value calls vars expr = some val) :
    ReadsComponents I env decodeTypePredicate ty x expr calls vars where
  discriminant := by
    rintro loc discriminant ident fields rfl
    cases hx with
    | @sum _ variants variant _ _ hshape hvariant hnames hfields =>
      obtain ⟨idx, hget⟩ := List.mem_iff_getElem?.mp hvariant
      obtain ⟨vals, hvals, hsorted⟩ := exists_variantSnapshots hwf hdistinct hclosed
        hdecodes hI hty hshape hvariant hnames hfields
      obtain rfl := hval.unique (isSnapshot_sum hwf hdistinct hdecodes hty hshape hget hnames hvals)
      obtain ⟨-, hvariants, -⟩ := complexVariants_of_sum hshape (List.ne_nil_of_mem hvariant)
      obtain ⟨snapshot, hsnapshot, hdiscriminant, -⟩ := exists_decodeSnapshot hdecodes hty
        (by simpa using List.ne_nil_of_mem hvariant) hvariants
      have hlength : 1 < (variants.map (env.enumVariant (env.predicateName ty))).length := by
        have hne := length_ne_one_of_sum hshape
        have hpos := List.length_pos_of_mem hvariant
        rw [List.length_map]
        omega
      have hread := (holds_discriminantAxiom_iff idx _).mp
        ((hI.complex ty hty _ hvariants).discriminant hlength _ idx
          (getElem?_enumVariant env hget _)) vals hsorted
      refine ⟨(discriminantFunc (env.predicateName ty)).apply [expr], ?_, ?_⟩
      · simp [TypeEnv.snapField, htype, hsnapshot, hdiscriminant]
      · rw [Interp.value_apply (Interp.values_singleton hexpr), hread]
        rfl
  field := by
    rintro layout loc fields hshape rfl idx name ty' x' hlayout hfield typ
    obtain ⟨hnil, -⟩ | ⟨hne, hunit, discriminant, hvariants⟩ :=
      complexVariants_of_product hwf hshape
    · simp [hnil] at hlayout
    obtain ⟨hnames, vals, hvals, hsorted⟩ :=
      exists_recordSnapshots hwf hdistinct hclosed hdecodes hI hty hshape hx
    obtain rfl := hval.unique (isSnapshot_record hwf hdecodes hty hshape hne hnames hvals)
    obtain ⟨snapshot, hsnapshot, -, -, hfuncs⟩ :=
      exists_decodeSnapshot hdecodes hty (List.cons_ne_nil _ _) hvariants
    obtain ⟨val, hread, his⟩ := value_fieldAccess (hI.complex ty hty _ hvariants)
      ⟨discriminant, _, none⟩ rfl rfl hvals hsorted hlayout hfield hexpr
    refine ⟨_, val, ?_, hread, his⟩
    have hmem := List.mem_of_getElem? hlayout
    have hfunc := get?_fieldAccessFuncs (env.predicateName ty) ⟨discriminant,
      env.layoutFields (argRefExpr (env.predicateName ty)) layout, none⟩ 0
      ((variantsOf_complexVariants hwf hvariants).nodup _ (List.mem_singleton_self _))
      (List.mem_map_of_mem hmem)
    have hname : name ≠ "discriminant" := name_ne_discriminant_of_product hshape hmem
    have hfuncs := hfuncs _ 0 rfl
    simp only [TypeEnv.snapField, htype, hsnapshot, hname, if_false, hfuncs, Option.bind_some,
      Option.bind_eq_bind, Option.pure_def]
    exact Option.bind_eq_some_iff.mpr ⟨_, hfunc, rfl⟩
  variantField := by
    rintro variants variant loc fields hshape hvariant rfl fieldIdx name ty' x' hlayout hfield
      variantTyp typ
    obtain ⟨loc', variant', hvariant', fields', heq, hnames, hfields⟩ := hx.exists_sum hshape
    obtain ⟨-, hvariants, adt, -, hdef⟩ :=
      complexVariants_of_sum hshape (List.ne_nil_of_mem hvariant)
    have hinj := List.inj_on_of_nodup_map (hdistinct.nodup_discriminants adt)
    rw [← hdef] at hinj
    simp only [HeapValue.sum.injEq] at heq
    obtain rfl := hinj hvariant hvariant' heq.2.1
    obtain ⟨-, -, -, rfl⟩ := heq
    obtain ⟨idx, hget⟩ := List.mem_iff_getElem?.mp hvariant
    obtain ⟨vals, hvals, hsorted⟩ := exists_variantSnapshots hwf hdistinct hclosed hdecodes hI
      hty hshape hvariant hnames hfields
    obtain rfl := hval.unique (isSnapshot_sum hwf hdistinct hdecodes hty hshape hget hnames hvals)
    obtain ⟨snapshot, hsnapshot, -, hvariantNames, hfuncs⟩ := exists_decodeSnapshot hdecodes hty
      (by simpa using List.ne_nil_of_mem hvariant) hvariants
    have hget' := getElem?_enumVariant env hget (env.predicateName ty)
    obtain ⟨val, hread, his⟩ := value_fieldAccess (hI.complex ty hty _ hvariants) _ hget' rfl
      hvals hsorted hlayout hfield hexpr
    refine ⟨_, val, ?_, hread, his⟩
    have hfunc := get?_fieldAccessFuncs (env.predicateName ty)
      (env.enumVariant (env.predicateName ty) variant) idx
      ((variantsOf_complexVariants hwf hvariants).nodup _ (List.mem_of_getElem? hget'))
      (List.mem_map_of_mem (List.mem_of_getElem? hlayout))
    have hidx : snapshot.variantNames.get? variant.ident = some idx := by
      rw [hvariantNames]
      exact get?_variantNames (fun _ => rfl) (hdef ▸ hdistinct.nodup_idents adt) hget
    simp only [TypeEnv.snapVariantField, stripEnum_append, htype, hsnapshot, hidx,
      hfuncs _ idx hget', Option.bind_some, Option.bind_eq_bind, Option.pure_def]
    exact Option.bind_eq_some_iff.mpr ⟨_, hfunc, rfl⟩

/-- A type with a snap function has instances that consist of components. -/
theorem shape_of_snapFunc {snapshot : Snapshot} {func : Function}
    (hsnapshot : env.encodeSnapshotInternal ty = some snapshot)
    (hfunc : snapshot.snapFunc? = some func) :
    ((∃ layout, env.shape ty = .product layout) ∨
      (∃ variants, env.shape ty = .sum variants) ∨
      ∃ elem length, env.shape ty = .seq elem length) ∧ env.isUnit ty = false := by
  have hunit : ∀ variants, env.complexVariants ty = some variants → env.isUnit ty = false := by
    intro variants h
    unfold TypeEnv.complexVariants at h
    split at h
    · cases h
    · next hunit => exact Bool.eq_false_of_not_eq_true hunit
  cases ty with
  | tuple elems =>
    refine ⟨.inl ⟨_, rfl⟩, ?_⟩
    simp only [TypeEnv.encodeSnapshotInternal] at hsnapshot
    split at hsnapshot
    · cases hsnapshot
      cases hfunc
    · next variants hvariants => exact hunit variants hvariants
  | adt name =>
    refine ⟨(shape_adt env name).elim (fun h => .inr (.inl h)) .inl, ?_⟩
    simp only [TypeEnv.encodeSnapshotInternal] at hsnapshot
    split at hsnapshot
    · cases hsnapshot
      cases hfunc
    · next variants hvariants => exact hunit variants hvariants
  | array elem length => exact ⟨.inr (.inr ⟨_, _, rfl⟩), rfl⟩
  | slice elem => exact ⟨.inr (.inr ⟨_, _, rfl⟩), rfl⟩
  | _ =>
    cases hsnapshot
    try cases hfunc

/-- The snapshot of an instance is what the body of the snap function yields. -/
theorem settles_callBody (hdecodes : Decodes env types decodeTypePredicate)
    (hty : ty ∈ types) {x : HeapValue} {val : Value I.E} {snapshot : Snapshot}
    {func : Function} (hsnapshot : env.encodeSnapshotInternal ty = some snapshot)
    (hfunc : snapshot.snapFunc? = some func) (h : IsSnapshot I env decodeTypePredicate ty x val) :
    Settles (fun fuel => callBody I (callFunction I env decodeTypePredicate fuel) func
      [.ref x]) val := by
  obtain ⟨depth, hdepth⟩ := h
  obtain ⟨hshape, hunit⟩ := shape_of_snapFunc hsnapshot hfunc
  refine ⟨depth, fun fuel hfuel => ?_⟩
  have hvalue : snapAppValue I env (callFunction I env decodeTypePredicate (fuel + 1)) ty x =
      some val := hdepth (fuel + 1) (by omega)
  rwa [snapAppValue_call hshape hunit, callFunction_snap hdecodes hty hsnapshot hfunc]
    at hvalue

/-- Snapshots represent values faithfully.  The snap functions yield the same snapshot for
two instances exactly if they are structurally equal, and the discriminant, the fields and
the fields of variants that are read from a snapshot are those of the instance. -/
theorem snapshots_faithful (hwf : env.WellFormed) (hdistinct : env.DistinctVariants)
    (hclosed : env.IsClosed types) (hdecodes : Decodes env types decodeTypePredicate)
    (hI : Interprets I env types) (hty : ty ∈ types) {x y : HeapValue}
    (hx : HasType env ty x) (hy : HasType env ty y) :
    ∃ val val', IsSnapshot I env decodeTypePredicate ty x val ∧
      IsSnapshot I env decodeTypePredicate ty y val' ∧
      (val = val' ↔ StructEq env ty x y) ∧
      (∀ snapshot func, env.encodeSnapshotInternal ty = some snapshot →
        snapshot.snapFunc? = some func →
        Settles (fun fuel => callBody I (callFunction I env decodeTypePredicate fuel) func
          [.ref x]) val ∧
        Settles (fun fuel => callBody I (callFunction I env decodeTypePredicate fuel) func
          [.ref y]) val') ∧
      ∀ expr (calls : I.Calls) vars, expr.getType = some (.snapshot (env.predicateName ty)) →
        I.value calls vars expr = some val →
        ReadsComponents I env decodeTypePredicate ty x expr calls vars := by
  obtain ⟨val, hval, -⟩ := exists_isSnapshot hwf hdistinct hclosed hdecodes hI hx hty
  obtain ⟨val', hval', -⟩ := exists_isSnapshot hwf hdistinct hclosed hdecodes hI hy hty
  refine ⟨val, val', hval, hval',
    isSnapshot_eq_iff hwf hdistinct hclosed hdecodes hI hx hty hy hval hval', ?_, ?_⟩
  · intro snapshot func hsnapshot hfunc
    exact ⟨settles_callBody hdecodes hty hsnapshot hfunc hval,
      settles_callBody hdecodes hty hsnapshot hfunc hval'⟩
  · intro expr calls vars htype hexpr
    exact readsComponents hwf hdistinct hclosed hdecodes hI hx hty hval htype hexpr

end Reading

/-- The terms are an interpretation of the domains of every family of types that have
different names. -/
theorem Snap.interprets {env : TypeEnv} {types : Set Ty} (hwf : env.WellFormed)
    (hinj : Set.InjOn env.predicateName types) :
    Interprets (Snap.interp env types) env types where
  unit := Snap.hasSort_interp.mpr (Snap.hasShape_apply ⟨_, rfl⟩ (by decide))
  complex := fun _ hty _ hvariants =>
    Snap.modelsVariants_complexVariants hwf hinj hty hvariants
  array := fun elem _ _ => Snap.models_arrayDomain (Snap.hasShape_default_encodeType elem)
  slice := fun elem _ => Snap.models_sliceDomain (Snap.hasShape_default_encodeType elem)

namespace Witness

/-- Lists of integers: the enumeration `List` has the variants `Nil` and
`Cons(i32, Box<List>)`. -/
def intListEnv : TypeEnv where
  adtDef := fun name =>
    if name = "List" then
      ⟨true, [⟨"Nil", 0, []⟩, ⟨"Cons", 1, [⟨"0", .int .i32⟩, ⟨"1", .box (.adt "List")⟩]⟩]⟩
    else ⟨false, []⟩
  predicateName := fun ty =>
    match ty with
    | .adt name => "m_" ++ name
    | .int .i32 => "i32"
    | _ => "box"

def intListTypes : Set Ty := {.adt "List", .box (.adt "List"), .int .i32}

def decodeIntList (name : String) : Option Ty :=
  if name = "m_List" then some (.adt "List")
  else if name = "i32" then some (.int .i32)
  else some (.box (.adt "List"))

/-- The list with one element, somewhere in the heap. -/
def oneElement (loc : Nat) : HeapValue :=
  .sum loc 1 "Cons" [("f$0", .int (loc + 1) 5),
    ("f$1", .record (loc + 2) [("val_ref", .sum (loc + 3) 0 "Nil" [])])]

theorem shape_intList : intListEnv.shape (.adt "List") = .sum [⟨"Nil", 0, []⟩,
    ⟨"Cons", 1, [⟨"0", .int .i32⟩, ⟨"1", .box (.adt "List")⟩]⟩] := rfl

theorem adtDef_intListEnv (name : String) :
    (intListEnv.adtDef name).variants = [] ∧ (intListEnv.adtDef name).isEnum = false ∨
    (intListEnv.adtDef name).variants = [⟨"Nil", 0, []⟩,
      ⟨"Cons", 1, [⟨"0", .int .i32⟩, ⟨"1", .box (.adt "List")⟩]⟩] ∧
      (intListEnv.adtDef name).isEnum = true := by
  unfold intListEnv
  dsimp only
  split
  · exact .inr ⟨rfl, rfl⟩
  · exact .inl ⟨rfl, rfl⟩

theorem hasType_oneElement (loc : Nat) : HasType intListEnv (.adt "List") (oneElement loc) := by
  have hnil : HasType intListEnv (.adt "List") (.sum (loc + 3) 0 "Nil" []) :=
    .sum shape_intList List.mem_cons_self rfl (by simp [VariantDef.layout])
  refine .sum shape_intList (List.mem_cons_of_mem _ List.mem_cons_self) rfl ?_
  intro idx name ty' x hlayout hfield
  rcases idx with _ | _ | idx
  · cases hlayout
    cases hfield
    exact .int rfl
  · cases hlayout
    cases hfield
    exact .pointer rfl hnil
  · cases hlayout

theorem structEq_oneElement (loc loc' : Nat) :
    StructEq intListEnv (.adt "List") (oneElement loc) (oneElement loc') := by
  have hnil : StructEq intListEnv (.adt "List") (.sum (loc + 3) 0 "Nil" [])
      (.sum (loc' + 3) 0 "Nil" []) :=
    .sum shape_intList List.mem_cons_self (by simp [VariantDef.layout])
  refine .sum shape_intList (List.mem_cons_of_mem _ List.mem_cons_self) ?_
  intro idx name ty' x y hlayout hfield hfield'
  rcases idx with _ | _ | idx
  · cases hlayout
    cases hfield
    cases hfield'
    exact .int rfl
  · cases hlayout
    cases hfield
    cases hfield'
    exact .pointer rfl hnil
  · cases hlayout

theorem wellFormed_intListEnv : intListEnv.WellFormed where
  nodup_fields := by
    intro name variant hvariant
    rcases adtDef_intListEnv name with ⟨heq, -⟩ | ⟨heq, -⟩
    · rw [heq] at hvariant
      cases hvariant
    · rw [heq] at hvariant
      simp only [List.mem_cons, List.not_mem_nil, or_false] at hvariant
      rcases hvariant with rfl | rfl <;> decide
  struct_variants := by
    intro name hstruct
    rcases adtDef_intListEnv name with ⟨heq, -⟩ | ⟨-, henum⟩
    · simp [heq]
    · rw [henum] at hstruct
      cases hstruct

theorem distinctVariants_intListEnv : intListEnv.DistinctVariants where
  nodup_discriminants := by
    intro name
    rcases adtDef_intListEnv name with ⟨heq, -⟩ | ⟨heq, -⟩ <;> rw [heq] <;> decide
  nodup_idents := by
    intro name
    rcases adtDef_intListEnv name with ⟨heq, -⟩ | ⟨heq, -⟩ <;> rw [heq] <;> decide

theorem isClosed_intListTypes : intListEnv.IsClosed intListTypes := by
  rintro ty (rfl | rfl | rfl) ty' hty'
  · simp only [TypeEnv.components, shape_intList, VariantDef.layout, List.flatMap_cons,
      List.flatMap_nil, List.map_cons, List.map_nil, List.nil_append, List.append_nil,
      List.mem_cons, List.not_mem_nil, or_false] at hty'
    rcases hty' with rfl | rfl
    · exact .inr (.inr rfl)
    · exact .inr (.inl rfl)
  · obtain rfl := List.mem_singleton.mp hty'
    exact .inl rfl
  · cases hty'

theorem decodes_intListTypes : Decodes intListEnv intListTypes decodeIntList := by
  rintro ty (rfl | rfl | rfl)
  · exact ⟨_, by simp [decodeIntList, intListEnv], SameSnapshot.refl _ _⟩
  · exact ⟨_, by simp [decodeIntList, intListEnv], SameSnapshot.refl _ _⟩
  · exact ⟨_, by simp [decodeIntList, intListEnv], SameSnapshot.refl _ _⟩

theorem injOn_intListTypes : Set.InjOn intListEnv.predicateName intListTypes := by
  rintro left (rfl | rfl | rfl) right (rfl | rfl | rfl) heq <;>
    first | rfl | exact absurd heq (by decide)

/-- Two lists with the same element have the same snapshot. -/
theorem snapshots_faithful_intList :
    ∃ I : Interp, ∃ val : Value I.E,
      IsSnapshot I intListEnv decodeIntList (.adt "List") (oneElement 0) val ∧
      IsSnapshot I intListEnv decodeIntList (.adt "List") (oneElement 10) val := by
  obtain ⟨val, val', hval, hval', hiff, -⟩ := snapshots_faithful wellFormed_intListEnv
    distinctVariants_intListEnv isClosed_intListTypes decodes_intListTypes
    (Snap.interprets wellFormed_intListEnv injOn_intListTypes) (.inl rfl)
    (hasType_oneElement 0) (hasType_oneElement 10)
  have heq : val = val' := hiff.mpr (structEq_oneElement 0 10)
  exact ⟨_, val, hval, heq ▸ hval'⟩

end Witness

end Prusti.Snapshots

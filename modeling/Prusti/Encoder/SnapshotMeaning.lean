/-
What the axioms of the snapshot domains say about an interpretation.
-/
import Prusti.Encoder.Snapshot
import Prusti.Lib.Lists

namespace Prusti.Vir.Interp

variable {I : Interp} {calls : I.Calls} {env : I.Env}

variable {vals : List (Value I.E)}

attribute [local simp] value values

theorem hasSorts_iff (vars : List LocalVar) (values : List (Value I.E)) :
    I.HasSorts vars values ↔ List.Forall₂ I.HasSort (vars.map (·.typ)) values := by
  rw [HasSorts, List.forall₂_map_left_iff]

/-- The value of a variable in scope. -/
theorem lookup_bind {vars : List LocalVar} (hnodup : (vars.map (·.name)).Nodup) {var : LocalVar}
    {val : Value I.E} (h : (var, val) ∈ vars.zip vals) :
    (env.bind vars vals).lookup var.name = some val := by
  induction vars generalizing vals with
  | nil => cases h
  | cons first vars ih =>
    cases vals with
    | nil => cases h
    | cons firstVal vals =>
      rw [List.map_cons, List.nodup_cons] at hnodup
      rw [List.zip_cons_cons, List.mem_cons] at h
      have hbind : env.bind (first :: vars) (firstVal :: vals) =
          (first.name, firstVal) :: env.bind vars vals := rfl
      rw [hbind, List.lookup_cons]
      rcases h with heq | h
      · cases heq
        simp
      · have hne : var.name ≠ first.name := fun heq =>
          hnodup.1 (heq ▸ List.mem_map_of_mem (List.of_mem_zip h).1)
        rw [beq_false_of_ne hne]
        exact ih hnodup.2 h

theorem values_locals {vars : List LocalVar} (hlength : vars.length = vals.length)
    (h : ∀ var val, (var, val) ∈ vars.zip vals → env.lookup var.name = some val) :
    I.values calls env (vars.map Expr.ofLocal) = some vals := by
  induction vars generalizing vals with
  | nil =>
    rw [List.length_nil, eq_comm, List.length_eq_zero_iff] at hlength
    rw [hlength]
    rfl
  | cons var vars ih =>
    cases vals with
    | nil => cases hlength
    | cons val vals =>
      have hrest := ih (Nat.succ.inj hlength) fun var' val' hmem =>
        h var' val' (List.mem_cons_of_mem _ hmem)
      have hfirst : I.value calls env (Expr.ofLocal var) = some val := h var val List.mem_cons_self
      rw [List.map_cons, values, hfirst, hrest]

theorem value_apply {func : DomainFunc} {args : List Expr}
    (h : I.values calls env args = some vals) :
    I.value calls env (func.apply args) = some (I.func func vals) := by
  rw [DomainFunc.apply, value, h, Option.map_some]

theorem values_singleton {expr : Expr} {val : Value I.E} (h : I.value calls env expr = some val) :
    I.values calls env [expr] = some [val] := by
  rw [values, h]
  rfl

@[simp] theorem value_ofBigInt (n : Int) :
    I.value calls env (Encoder.ofBigInt n) = some (.int n) := by
  rw [Encoder.ofBigInt, value, intOfDigits_toString]

@[simp] theorem value_ofInt (n : Int) : I.value calls env (Expr.ofInt n) = some (.int n) := by
  simp [Expr.ofInt]

/-- The formula has a truth value. -/
def IsBool (env : I.Env) (expr : Expr) : Prop :=
  ∃ b, I.value (fun _ _ _ => none) env expr = some (.bool b)

theorem holds_forallExpr (vars : List LocalVar) (triggers : List (List Expr)) (body : Expr) :
    I.Holds env (Snapshots.forallExpr vars triggers body) ↔
      ∀ vals, I.HasSorts vars vals → I.Holds (env.bind vars vals) body := by
  simp [Holds, Snapshots.forallExpr]

theorem holds_forallOrBody (vars : List LocalVar) (triggers : List (List Expr)) (body : Expr) :
    I.Holds env (Snapshots.forallOrBody vars triggers body) ↔
      ∀ vals, I.HasSorts vars vals → I.Holds (env.bind vars vals) body := by
  cases vars with
  | nil =>
    change I.Holds env body ↔ _
    constructor
    · intro h vals hvals
      cases hvals
      exact h
    · intro h
      exact h [] .nil
  | cons var vars => exact holds_forallExpr (var :: vars) triggers body

section

variable {left right : Expr} {leftVal rightVal : Value I.E}

theorem value_eqCmp (hleft : I.value calls env left = some leftVal)
    (hright : I.value calls env right = some rightVal) :
    I.value calls env (Expr.eqCmp left right) = I.binOpValue .eqCmp leftVal rightVal := by
  simp [Expr.eqCmp, Expr.mkBinOp, hleft, hright]

theorem isBool_eqCmp (hleft : I.value (fun _ _ _ => none) env left = some leftVal)
    (hright : I.value (fun _ _ _ => none) env right = some rightVal) :
    I.IsBool env (Expr.eqCmp left right) :=
  ⟨_, value_eqCmp hleft hright⟩

theorem holds_eqCmp (hleft : I.value (fun _ _ _ => none) env left = some leftVal)
    (hright : I.value (fun _ _ _ => none) env right = some rightVal) :
    I.Holds env (Expr.eqCmp left right) ↔ leftVal = rightVal := by
  rw [Holds, value_eqCmp hleft hright]
  simp [binOpValue_eqCmp]

theorem holds_leCmp {m n : Int} (hleft : I.value (fun _ _ _ => none) env left = some (.int m))
    (hright : I.value (fun _ _ _ => none) env right = some (.int n)) :
    I.Holds env (Expr.leCmp left right) ↔ m ≤ n := by
  simp [Holds, Expr.leCmp, Expr.mkBinOp, hleft, hright, binOpValue_leCmp]

theorem isBool_leCmp {m n : Int} (hleft : I.value (fun _ _ _ => none) env left = some (.int m))
    (hright : I.value (fun _ _ _ => none) env right = some (.int n)) :
    I.IsBool env (Expr.leCmp left right) := by
  simp [IsBool, Expr.leCmp, Expr.mkBinOp, hleft, hright, binOpValue_leCmp]

theorem holds_implies (hleft : I.IsBool env left) (hright : I.IsBool env right) :
    I.Holds env (Expr.implies left right) ↔ (I.Holds env left → I.Holds env right) := by
  obtain ⟨b, hb⟩ := hleft
  obtain ⟨c, hc⟩ := hright
  simp [Holds, Expr.implies, Expr.mkBinOp, hb, hc, binOpValue_implies]
  cases b <;> simp

theorem holds_mkAnd (hleft : I.IsBool env left) (hright : I.IsBool env right) :
    (I.Holds env (Expr.mkAnd left right) ↔
      I.Holds env left ∧ I.Holds env right) ∧
      I.IsBool env (Expr.mkAnd left right) := by
  obtain ⟨b, hb⟩ := hleft
  obtain ⟨c, hc⟩ := hright
  simp [Holds, IsBool, Expr.mkAnd, Expr.mkBinOp, hb, hc, binOpValue_and]

theorem holds_mkOr (hleft : I.IsBool env left) (hright : I.IsBool env right) :
    (I.Holds env (Expr.mkOr left right) ↔
      I.Holds env left ∨ I.Holds env right) ∧
      I.IsBool env (Expr.mkOr left right) := by
  obtain ⟨b, hb⟩ := hleft
  obtain ⟨c, hc⟩ := hright
  simp [Holds, IsBool, Expr.mkOr, Expr.mkBinOp, hb, hc, binOpValue_or]

end

theorem holds_conjoin {exprs : List Expr} (h : ∀ expr ∈ exprs, I.IsBool env expr) :
    (I.Holds env (Expr.conjoin exprs) ↔ ∀ expr ∈ exprs, I.Holds env expr) ∧
      I.IsBool env (Expr.conjoin exprs) := by
  induction exprs with
  | nil => simp [Expr.conjoin, Holds, IsBool, Expr.ofBool]
  | cons expr exprs ih =>
    obtain ⟨hiff, hbool⟩ := ih fun expr' h' => h expr' (List.mem_cons_of_mem _ h')
    obtain ⟨hand, hbool'⟩ := holds_mkAnd (h expr List.mem_cons_self) hbool
    rw [Expr.conjoin, hand, hiff, List.forall_mem_cons]
    exact ⟨Iff.rfl, hbool'⟩

theorem holds_disjoin {exprs : List Expr} (h : ∀ expr ∈ exprs, I.IsBool env expr) :
    (I.Holds env (Expr.disjoin exprs) ↔ ∃ expr ∈ exprs, I.Holds env expr) ∧
      I.IsBool env (Expr.disjoin exprs) := by
  induction exprs with
  | nil => simp [Expr.disjoin, Holds, IsBool, Expr.ofBool]
  | cons expr exprs ih =>
    obtain ⟨hiff, hbool⟩ := ih fun expr' h' => h expr' (List.mem_cons_of_mem _ h')
    obtain ⟨hor, hbool'⟩ := holds_mkOr (h expr List.mem_cons_self) hbool
    rw [Expr.disjoin, hor, hiff, List.exists_mem_cons_iff]
    exact ⟨Iff.rfl, hbool'⟩

end Prusti.Vir.Interp

namespace Prusti.Snapshots

open Prusti.Vir Prusti.Lib
open Prusti.Encoder (ofBigInt rangeExtract rangeExpr rangeLoop)

variable {I : Interp} {predicateName : String}

variable {env : I.Env} {fields : List SnapshotField} {field : SnapshotField} {n : Int}

/-- The values of the fields of a variant. -/
def FieldsSorted (I : Interp) (fields : List SnapshotField) (vals : List (Value I.E)) : Prop :=
  List.Forall₂ (fun field val => I.HasSort field.typ val) fields vals

theorem map_typ_constructorArgs (letters : String) (fields : List SnapshotField) :
    (constructorArgs letters fields).map (·.typ) = fields.map (·.typ) := by
  simp only [constructorArgs, List.map_map, Function.comp_def]
  exact List.ext_getElem (by simp) (by simp)

theorem hasSorts_constructorArgs (letters : String)
    (fields : List SnapshotField) (vals : List (Value I.E)) :
    I.HasSorts (constructorArgs letters fields) vals ↔ FieldsSorted I fields vals := by
  rw [Interp.hasSorts_iff, map_typ_constructorArgs, FieldsSorted, List.forall₂_map_left_iff]

theorem argName_toList (letters : String) (index : Nat) :
    (argName letters index).toList = letters.toList ++ '_' :: Nat.toDigits 10 index := by
  rw [argName, String.toList_append, String.toList_append]
  change letters.toList ++ ['_'] ++ (Nat.repr index).toList = _
  rw [Nat.toList_repr, List.append_assoc, List.singleton_append]

theorem argName_injective (letters : String) : Function.Injective (argName letters) := by
  intro left right heq
  have hlist := congrArg String.toList heq
  rw [argName_toList, argName_toList, List.append_cancel_left_eq, List.cons.injEq] at hlist
  rw [← Nat.ofDigitChars_ten_toDigits (n := left), hlist.2, Nat.ofDigitChars_ten_toDigits]

theorem map_name_constructorArgs (letters : String) (fields : List SnapshotField) :
    (constructorArgs letters fields).map (·.name) =
      (List.range fields.length).map (argName letters) := by
  simp only [constructorArgs, List.map_map, Function.comp_def]
  exact List.ext_getElem (by simp) (by simp)

theorem nodup_constructorArgs (letters : String) (fields : List SnapshotField) :
    ((constructorArgs letters fields).map (·.name)).Nodup := by
  rw [map_name_constructorArgs]
  exact List.nodup_range.map (argName_injective letters)

theorem length_constructorArgs (letters : String) (fields : List SnapshotField) :
    (constructorArgs letters fields).length = fields.length := by
  simp [constructorArgs]

/-- The two lists of arguments of the injectivity axiom have different names. -/
theorem nodup_two_constructorArgs (fields : List SnapshotField) :
    ((constructorArgs "_l" fields ++ constructorArgs "_r" fields).map (·.name)).Nodup := by
  rw [List.map_append, List.nodup_append']
  refine ⟨nodup_constructorArgs _ _, nodup_constructorArgs _ _, ?_⟩
  intro name hleft hright
  rw [map_name_constructorArgs, List.mem_map] at hleft hright
  obtain ⟨left, -, rfl⟩ := hleft
  obtain ⟨right, -, heq⟩ := hright
  have hlist := congrArg (fun name => name.toList.take 2) heq
  simp only [argName_toList] at hlist
  exact absurd hlist (by simp)

theorem zip_eq_of_conjunction {vars vars' : List LocalVar} {vals vals' : List (Value I.E)}
    (hlength : vars.length = vals.length) (hlength' : vars'.length = vals'.length)
    (hsame : vars.length = vars'.length)
    (hvars : ∀ var val, (var, val) ∈ vars.zip vals → env.lookup var.name = some val)
    (hvars' : ∀ var val, (var, val) ∈ vars'.zip vals' → env.lookup var.name = some val) :
    (I.Holds env (Expr.conjoin ((vars.zip vars').map fun item =>
      Expr.eqCmp (Expr.ofLocal item.1) (Expr.ofLocal item.2))) ↔ vals = vals') ∧
      I.IsBool env (Expr.conjoin ((vars.zip vars').map fun item =>
        Expr.eqCmp (Expr.ofLocal item.1) (Expr.ofLocal item.2))) := by
  induction vars generalizing vars' vals vals' with
  | nil =>
    rw [List.length_nil, eq_comm, List.length_eq_zero_iff] at hlength
    rw [List.length_nil, eq_comm, List.length_eq_zero_iff] at hsame
    subst hlength hsame
    rw [List.length_nil, eq_comm, List.length_eq_zero_iff] at hlength'
    subst hlength'
    simp [Expr.conjoin, Interp.Holds, Interp.IsBool, Expr.ofBool, Interp.value]
  | cons var vars ih =>
    cases vars' with
    | nil => cases hsame
    | cons var' vars' =>
      cases vals with
      | nil => cases hlength
      | cons val vals =>
        cases vals' with
        | nil => cases hlength'
        | cons val' vals' =>
          have hval : I.value (fun _ _ _ => none) env (Expr.ofLocal var) =
              some val := hvars var val List.mem_cons_self
          have hval' : I.value (fun _ _ _ => none) env (Expr.ofLocal var') =
              some val' := hvars' var' val' List.mem_cons_self
          obtain ⟨hiff, hbool⟩ := ih (Nat.succ.inj hlength)
            (Nat.succ.inj hlength') (Nat.succ.inj hsame)
            (fun _ _ hmem => hvars _ _ (List.mem_cons_of_mem _ hmem))
            (fun _ _ hmem => hvars' _ _ (List.mem_cons_of_mem _ hmem))
          obtain ⟨hand, hbool'⟩ := Interp.holds_mkAnd (Interp.isBool_eqCmp hval hval') hbool
          rw [List.zip_cons_cons, List.map_cons, Expr.conjoin]
          refine ⟨?_, hbool'⟩
          rw [hand, hiff, Interp.holds_eqCmp hval hval', List.cons.injEq]

/-- The values of the arguments of two calls of a constructor. -/
theorem lookup_two_constructorArgs {left : List (Value I.E)} (hleft : FieldsSorted I fields left)
    (right : List (Value I.E)) (var : LocalVar) (val : Value I.E)
    (h : (var, val) ∈ (constructorArgs "_l" fields).zip left ∨
      (var, val) ∈ (constructorArgs "_r" fields).zip right) :
    (Interp.Env.bind ([] : I.Env) (constructorArgs "_l" fields ++
      constructorArgs "_r" fields) (left ++ right)).lookup var.name = some val := by
  refine Interp.lookup_bind (nodup_two_constructorArgs fields) ?_
  rw [List.zip_append ((length_constructorArgs "_l" fields).trans hleft.length_eq)]
  exact List.mem_append.mpr h

theorem value_constructorCall (env : I.Env) (predicateName : String)
    (variantIdx : Nat) (fields : List SnapshotField) {args : List LocalVar}
    {vals : List (Value I.E)} (hlength : args.length = vals.length)
    (h : ∀ var val, (var, val) ∈ args.zip vals → env.lookup var.name = some val) :
    I.value (fun _ _ _ => none) env
      (constructorCall predicateName variantIdx fields args) =
        some (I.func (constructorFunc predicateName variantIdx fields) vals) :=
  Interp.value_apply (Interp.values_locals hlength h)

/-- The constructor is injective. -/
theorem holds_injectivity_iff (variantIdx : Nat) (fields : List SnapshotField) :
    I.Holds [] (injectivity predicateName variantIdx fields).expr ↔
      ∀ left right, FieldsSorted I fields left → FieldsSorted I fields right →
        I.func (constructorFunc predicateName variantIdx fields) left =
          I.func (constructorFunc predicateName variantIdx fields) right →
        left = right := by
  have hlength : ∀ letters (vals : List (Value I.E)), FieldsSorted I fields vals →
      (constructorArgs letters fields).length = vals.length := fun letters vals h =>
    (length_constructorArgs letters fields).trans h.length_eq
  -- what the body of the quantifier says for given arguments
  have hbody : ∀ left right, FieldsSorted I fields left →
      FieldsSorted I fields right →
      (I.Holds (Interp.Env.bind [] (constructorArgs "_l" fields ++
          constructorArgs "_r" fields) (left ++ right))
        (Expr.implies (Expr.eqCmp (constructorCall predicateName variantIdx fields
            (constructorArgs "_l" fields))
          (constructorCall predicateName variantIdx fields (constructorArgs "_r" fields)))
          (Expr.conjoin (((constructorArgs "_l" fields).zip
            (constructorArgs "_r" fields)).map fun item =>
              Expr.eqCmp (Expr.ofLocal item.1) (Expr.ofLocal item.2)))) ↔
        (I.func (constructorFunc predicateName variantIdx fields) left =
          I.func (constructorFunc predicateName variantIdx fields) right →
        left = right)) := by
    intro left right hleft hright
    have hlookup := lookup_two_constructorArgs hleft right
    have hlookupL := fun var val h => hlookup var val (.inl h)
    have hlookupR := fun var val h => hlookup var val (.inr h)
    have hcallL := value_constructorCall _ predicateName variantIdx fields
      (hlength "_l" left hleft) hlookupL
    have hcallR := value_constructorCall _ predicateName variantIdx fields
      (hlength "_r" right hright) hlookupR
    obtain ⟨hiff, hbool⟩ := zip_eq_of_conjunction (hlength "_l" left hleft)
      (hlength "_r" right hright)
      ((length_constructorArgs _ _).trans (length_constructorArgs _ _).symm)
      hlookupL hlookupR
    rw [Interp.holds_implies (Interp.isBool_eqCmp hcallL hcallR) hbool,
      Interp.holds_eqCmp hcallL hcallR, hiff]
  rw [injectivity, axiomNamed, Interp.holds_forallOrBody]
  constructor
  · intro h left right hleft hright
    refine (hbody left right hleft hright).mp (h (left ++ right) ?_)
    exact List.rel_append ((hasSorts_constructorArgs _ _ _).mpr hleft)
      ((hasSorts_constructorArgs _ _ _).mpr hright)
  · intro h vals hvals
    obtain ⟨left, right, hleft, hright, rfl⟩ := exists_of_forall₂_append hvals
    rw [← Interp.HasSorts, hasSorts_constructorArgs] at hleft hright
    exact (hbody left right hleft hright).mpr (h left right hleft hright)

/-- The constructor gives the discriminant of its variant. -/
theorem holds_discriminantAxiom_iff (variantIdx : Nat) (variant : SnapshotVariant) :
    I.Holds [] (discriminantAxiom predicateName variantIdx variant).expr ↔
      ∀ vals, FieldsSorted I variant.fields vals → I.func (discriminantFunc predicateName)
          [I.func (constructorFunc predicateName variantIdx variant.fields) vals] =
            .int variant.discriminant := by
  rw [discriminantAxiom, axiomNamed, Interp.holds_forallOrBody]
  refine forall_congr' fun vals => ?_
  rw [hasSorts_constructorArgs]
  refine imp_congr_right fun hvals => ?_
  have hcall := value_constructorCall (Interp.Env.bind []
      (constructorArgs "" variant.fields) vals) predicateName variantIdx
    variant.fields ((length_constructorArgs "" _).trans hvals.length_eq)
    fun var val h => Interp.lookup_bind (nodup_constructorArgs "" _) h
  exact Interp.holds_eqCmp (Interp.value_apply (Interp.values_singleton hcall))
    (Interp.value_ofBigInt _)

theorem getElem?_constructorArgs {letters : String} {fieldIdx : Nat}
    (h : fields[fieldIdx]? = some field) :
    (constructorArgs letters fields)[fieldIdx]? = some ⟨argName letters fieldIdx, field.typ⟩ := by
  simp [constructorArgs, h]

/-- The access function gives the argument at its position. -/
theorem holds_fieldAxiom_iff {variantIdx fieldIdx : Nat} (hfield : fields[fieldIdx]? = some field) :
    I.Holds [] (fieldAxiom predicateName variantIdx fields field fieldIdx).expr ↔
      ∀ vals, FieldsSorted I fields vals →
        some (I.func (fieldAccessFunc predicateName variantIdx field)
          [I.func (constructorFunc predicateName variantIdx fields) vals]) = vals[fieldIdx]? := by
  rw [fieldAxiom, axiomNamed, Interp.holds_forallOrBody]
  refine forall_congr' fun vals => ?_
  rw [hasSorts_constructorArgs]
  refine imp_congr_right fun hvals => ?_
  have hlookup : ∀ var val, (var, val) ∈ (constructorArgs "" fields).zip vals →
      (Interp.Env.bind ([] : I.Env) (constructorArgs "" fields) vals).lookup
        var.name = some val := fun _ _ h =>
    Interp.lookup_bind (nodup_constructorArgs "" fields) h
  have hcall := value_constructorCall (Interp.Env.bind []
      (constructorArgs "" fields) vals) predicateName variantIdx fields
    ((length_constructorArgs "" _).trans hvals.length_eq) hlookup
  obtain ⟨val, hval, -⟩ := forall₂_getElem? hvals hfield
  have hmem : ((⟨argName "" fieldIdx, field.typ⟩ : LocalVar), val) ∈
      (constructorArgs "" fields).zip vals := by
    refine List.mem_of_getElem? (i := fieldIdx) ?_
    rw [List.getElem?_zip_eq_some]
    exact ⟨getElem?_constructorArgs hfield, hval⟩
  rw [hval, Option.some.injEq]
  exact Interp.holds_eqCmp (Interp.value_apply (Interp.values_singleton hcall)) (hlookup _ _ hmem)

/-- An expression with a fixed integer value. -/
def IsLiteral (I : Interp) (expr : Expr) : Prop :=
  ∃ n, ∀ env : I.Env, I.value (fun _ _ _ => none) env expr = some (.int n)

theorem isLiteral_ofInt (n : Int) : IsLiteral I (Expr.ofInt n) := ⟨n, fun _ => Interp.value_ofInt n⟩

theorem isLiteral_ofBigInt (n : Int) : IsLiteral I (ofBigInt n) :=
  ⟨n, fun _ => Interp.value_ofBigInt n⟩

/-- The bounds of an integer type are literals. -/
theorem exists_integerBounds {ty : Ty} (h : ty.isInt = true) :
    ∃ lower upper, getIntegerBounds ty = some (lower, upper) ∧
      IsLiteral I lower ∧ IsLiteral I upper := by
  cases ty with
  | int kind =>
    cases kind <;> refine ⟨_, _, rfl, ?_, ?_⟩ <;>
      first
        | exact isLiteral_ofBigInt _
        | exact isLiteral_ofInt _
  | uint kind =>
    cases kind <;> refine ⟨_, _, rfl, isLiteral_ofInt _, ?_⟩ <;>
      first
        | exact isLiteral_ofBigInt _
        | exact isLiteral_ofInt _
  | char => exact ⟨_, _, rfl, isLiteral_ofInt _, isLiteral_ofBigInt _⟩
  | _ => cases h

/-- The access function of an integer field is bounded. -/
theorem exists_bounds_of_validAxiom {variantIdx : Nat} (hint : field.mirType.isInt = true)
    (h : I.Holds [] (validAxiom predicateName variantIdx field).expr) :
    ∃ low high : Int, ∀ val, I.HasSort (.snapshot predicateName) val →
      ∀ n, I.func (fieldAccessFunc predicateName variantIdx field) [val] =
        .int n → low ≤ n ∧ n ≤ high := by
  obtain ⟨lower, upper, hbounds, ⟨low, hlower⟩, ⟨high, hupper⟩⟩ :=
    exists_integerBounds (I := I) hint
  refine ⟨low, high, ?_⟩
  intro val hval n hn
  rw [validAxiom, axiomNamed, Interp.holds_forallExpr] at h
  have hbody := h [val] (.cons hval .nil)
  have hlower := hlower (Interp.Env.bind [] [argDomLocal predicateName] [val])
  have hupper := hupper (Interp.Env.bind [] [argDomLocal predicateName] [val])
  have hself : I.value (fun _ _ _ => none) (Interp.Env.bind [] [argDomLocal predicateName] [val])
      ((fieldAccessFunc predicateName variantIdx field).apply
        [Expr.ofLocal (argDomLocal predicateName)]) = some (.int n) := by
    rw [← hn]
    exact Interp.value_apply (Interp.values_singleton rfl)
  rw [encodeBounds, hbounds] at hbody
  have hleft := Interp.isBool_leCmp hlower hself
  have hright := Interp.isBool_leCmp hself hupper
  rw [(Interp.holds_conjoin (by
    intro expr hexpr
    rcases List.mem_cons.mp hexpr with rfl | hexpr
    · exact hleft
    · rw [List.mem_singleton.mp hexpr]
      exact hright)).1] at hbody
  exact ⟨(Interp.holds_leCmp hlower hself).mp (hbody _ List.mem_cons_self),
    (Interp.holds_leCmp hself hupper).mp (hbody _ (List.mem_cons_of_mem _ List.mem_cons_self))⟩

theorem exists_range_of_rangeLoop (current : Int × Int) {values : List Int}
    (hcurrent : current.1 ≤ current.2) (h : (current.1 ≤ n ∧ n ≤ current.2) ∨ n ∈ values) :
    ∃ range ∈ rangeLoop current values, range.1 ≤ n ∧ n ≤ range.2 := by
  induction values generalizing current with
  | nil => exact ⟨current, List.mem_cons_self, h.resolve_right (by simp)⟩
  | cons value values ih =>
    rw [rangeLoop]
    split
    · next heq =>
        rw [beq_iff_eq] at heq
        refine ih _ (by simp only; omega) ?_
        rcases h with h | h
        · exact .inl ⟨h.1, by simp only; omega⟩
        · rcases List.mem_cons.mp h with rfl | h
          · exact .inl ⟨by simp only; omega, by simp only; omega⟩
          · exact .inr h
    · rcases h with h | h
      · exact ⟨current, List.mem_cons_self, h⟩
      · have hrest : (value ≤ n ∧ n ≤ value) ∨ n ∈ values := by
          rcases List.mem_cons.mp h with rfl | h
          · exact .inl ⟨le_rfl, le_rfl⟩
          · exact .inr h
        obtain ⟨range, hrange, hbounds⟩ := ih (value, value) le_rfl hrest
        exact ⟨range, List.mem_cons_of_mem _ hrange, hbounds⟩

/-- The ranges cover the values. -/
theorem exists_range_of_mem {values : List Int} (h : n ∈ values) :
    ∃ range ∈ rangeExtract values, range.1 ≤ n ∧ n ≤ range.2 := by
  have hsorted : n ∈ values.insertionSort (· ≤ ·) :=
    (List.perm_insertionSort _ values).mem_iff.mpr h
  unfold rangeExtract
  split
  · next heq =>
      rw [heq] at hsorted
      cases hsorted
  · next first rest heq =>
      rw [heq] at hsorted
      refine exists_range_of_rangeLoop (first, first) le_rfl ?_
      rcases List.mem_cons.mp hsorted with rfl | hmem
      · exact .inl ⟨le_rfl, le_rfl⟩
      · exact .inr hmem

theorem value_ofBigInt_none (env : I.Env) (n : Int) :
    I.value (fun _ _ _ => none) env (ofBigInt n) = some (.int n) :=
  Interp.value_ofBigInt n

theorem holds_rangeExpr {expr : Expr} (hexpr : I.value (fun _ _ _ => none) env expr = some (.int n))
    (range : Int × Int) :
    I.IsBool env (rangeExpr expr range) ∧
      (range.1 ≤ n → n ≤ range.2 → I.Holds env (rangeExpr expr range)) := by
  unfold rangeExpr
  split
  · next heq =>
      rw [beq_iff_eq] at heq
      have hlit := value_ofBigInt_none env range.1
      refine ⟨Interp.isBool_eqCmp hexpr hlit, fun hlow hhigh => ?_⟩
      rw [Interp.holds_eqCmp hexpr hlit, Value.int.injEq]
      omega
  · have hlow := value_ofBigInt_none env range.1
    have hhigh := value_ofBigInt_none env range.2
    obtain ⟨hand, hbool⟩ := Interp.holds_mkAnd
      (Interp.isBool_leCmp hlow hexpr) (Interp.isBool_leCmp hexpr hhigh)
    refine ⟨hbool, fun h h' => ?_⟩
    rw [hand, Interp.holds_leCmp hlow hexpr, Interp.holds_leCmp hexpr hhigh]
    exact ⟨h, h'⟩

/-- It is enough that every element has the discriminant of a variant. -/
theorem holds_discriminantRange {variants : List SnapshotVariant}
    (h : ∀ val, I.HasSort (.snapshot predicateName) val →
      ∃ variant ∈ variants, I.func (discriminantFunc predicateName) [val] =
        .int variant.discriminant) :
    I.Holds [] (discriminantRange predicateName variants).expr := by
  rw [discriminantRange, axiomNamed, Interp.holds_forallExpr]
  intro vals hvals
  obtain ⟨val, rest, hval, hrest, rfl⟩ := List.forall₂_cons_left_iff.mp hvals
  cases hrest
  obtain ⟨variant, hvariant, hdiscriminant⟩ := h val hval
  have hcall : I.value (fun _ _ _ => none) (Interp.Env.bind [] [argDomLocal predicateName] [val])
      ((discriminantFunc predicateName).apply
        [Expr.ofLocal (argDomLocal predicateName)]) = some (.int variant.discriminant) := by
    rw [← hdiscriminant]
    exact Interp.value_apply (Interp.values_singleton rfl)
  obtain ⟨range, hrange, hlow, hhigh⟩ :=
    exists_range_of_mem (List.mem_map_of_mem (f := (·.discriminant)) hvariant)
  refine (Interp.holds_disjoin ?_).1.mpr
    ⟨_, List.mem_map_of_mem hrange, (holds_rangeExpr hcall range).2 hlow hhigh⟩
  intro expr hexpr
  obtain ⟨range', -, rfl⟩ := List.mem_map.mp hexpr
  exact (holds_rangeExpr hcall range').1

section Sequence

variable {elemTyp : Typ}

theorem value_seqCons (predicateName : String) (elemTyp : Typ) {expr : Expr} {data : Value I.E}
    (h : I.value (fun _ _ _ => none) env expr = some data) :
    I.value (fun _ _ _ => none) env
      ((seqConsFunc predicateName elemTyp).apply [expr]) =
        some (I.func (seqConsFunc predicateName elemTyp) [data]) :=
  Interp.value_apply (Interp.values_singleton h)

/-- The constructor of an array or a slice is injective. -/
theorem holds_seqInjectivity_iff :
    I.Holds [] (seqInjectivity predicateName elemTyp).expr ↔
      ∀ left right, I.HasSort (.seq elemTyp) left →
        I.HasSort (.seq elemTyp) right →
        I.func (seqConsFunc predicateName elemTyp) [left] =
          I.func (seqConsFunc predicateName elemTyp) [right] →
        left = right := by
  have hbody : ∀ left right : Value I.E,
      (I.Holds (Interp.Env.bind [] [⟨"_l_data", .seq elemTyp⟩,
          ⟨"_r_data", .seq elemTyp⟩] [left, right])
        (Expr.implies (Expr.eqCmp ((seqConsFunc predicateName elemTyp).apply
            [Expr.ofLocal ⟨"_l_data", .seq elemTyp⟩])
          ((seqConsFunc predicateName elemTyp).apply [Expr.ofLocal ⟨"_r_data", .seq elemTyp⟩]))
          (Expr.eqCmp (Expr.ofLocal ⟨"_l_data", .seq elemTyp⟩)
            (Expr.ofLocal ⟨"_r_data", .seq elemTyp⟩))) ↔
        (I.func (seqConsFunc predicateName elemTyp) [left] =
          I.func (seqConsFunc predicateName elemTyp) [right] →
        left = right)) := by
    intro left right
    have hvalL : I.value (fun _ _ _ => none)
        (Interp.Env.bind [] [⟨"_l_data", .seq elemTyp⟩, ⟨"_r_data", .seq elemTyp⟩] [left, right])
        (Expr.ofLocal ⟨"_l_data", .seq elemTyp⟩) = some left := rfl
    have hvalR : I.value (fun _ _ _ => none)
        (Interp.Env.bind [] [⟨"_l_data", .seq elemTyp⟩, ⟨"_r_data", .seq elemTyp⟩] [left, right])
        (Expr.ofLocal ⟨"_r_data", .seq elemTyp⟩) = some right := rfl
    have hleft := value_seqCons predicateName elemTyp hvalL
    have hright := value_seqCons predicateName elemTyp hvalR
    rw [Interp.holds_implies (Interp.isBool_eqCmp hleft hright)
        (Interp.isBool_eqCmp hvalL hvalR),
      Interp.holds_eqCmp hleft hright, Interp.holds_eqCmp hvalL hvalR]
  rw [seqInjectivity, axiomNamed, Interp.holds_forallExpr]
  constructor
  · intro h left right hleft hright
    exact (hbody left right).mp (h [left, right] (.cons hleft (.cons hright .nil)))
  · intro h vals hvals
    obtain ⟨left, rest, hleft, hrest, rfl⟩ := List.forall₂_cons_left_iff.mp hvals
    obtain ⟨right, rest, hright, hrest, rfl⟩ := List.forall₂_cons_left_iff.mp hrest
    cases hrest
    exact (hbody left right).mpr (h left right hleft hright)

/-- The element of a sequence at an index, also outside of its bounds. -/
def indexed (I : Interp) (elemTyp : Typ) (elems : List (Value I.E)) (index : Int) : Value I.E :=
  if 0 ≤ index then elems[index.toNat]?.getD (I.outOfRange elemTyp elems index)
  else I.outOfRange elemTyp elems index

theorem containerOpValue_seqIndex (elems : List (Value I.E)) (index : Int) :
    I.containerOpValue elemTyp .seqIndex (.seq elems) (.int index) =
      some (indexed I elemTyp elems index) := by
  simp only [Interp.containerOpValue, indexed]
  split
  · cases elems[index.toNat]? <;> rfl
  · rfl

/-- What is read from an array or a slice are the elements it was made of. -/
theorem holds_seqReadAxiom_iff (argName : String) :
    I.Holds [] (seqReadAxiom predicateName elemTyp argName).expr ↔
      ∀ elems, I.HasSort (.seq elemTyp) (.seq elems) → ∀ index : Int,
        I.func (seqReadFunc predicateName elemTyp argName)
          [I.func (seqConsFunc predicateName elemTyp) [.seq elems], .int index] =
            indexed I elemTyp elems index := by
  have hbody : ∀ elems (index : Int),
      (I.Holds (Interp.Env.bind [] [⟨"data", .seq elemTyp⟩, ⟨"idx", .int⟩] [.seq elems, .int index])
        (Expr.eqCmp ((seqReadFunc predicateName elemTyp argName).apply
            [(seqConsFunc predicateName elemTyp).apply
              [Expr.ofLocal ⟨"data", .seq elemTyp⟩], Expr.ofLocal ⟨"idx", .int⟩])
          (.containerOp .seqIndex (Expr.ofLocal ⟨"data", .seq elemTyp⟩)
            (Expr.ofLocal ⟨"idx", .int⟩) Position.default)) ↔
        I.func (seqReadFunc predicateName elemTyp argName)
          [I.func (seqConsFunc predicateName elemTyp) [.seq elems], .int index] =
            indexed I elemTyp elems index) := by
    intro elems index
    refine Interp.holds_eqCmp (Interp.value_apply ?_) ?_
    · rfl
    · exact containerOpValue_seqIndex elems index
  rw [seqReadAxiom, Interp.holds_forallExpr]
  constructor
  · intro h elems helems index
    exact (hbody elems index).mp
      (h [.seq elems, .int index] (.cons helems (.cons ⟨index, rfl⟩ .nil)))
  · intro h vals hvals
    obtain ⟨data, rest, hdata, hrest, rfl⟩ := List.forall₂_cons_left_iff.mp hvals
    obtain ⟨idx, rest, ⟨index, rfl⟩, hrest, rfl⟩ := List.forall₂_cons_left_iff.mp hrest
    cases hrest
    obtain ⟨elems, rfl, helems⟩ := hdata
    exact (hbody elems index).mpr (h elems ⟨elems, rfl, helems⟩ index)

/-- The length of a slice is that of the sequence it was made of. -/
theorem holds_lenOfSeq_iff :
    I.Holds [] (lenOfSeq predicateName elemTyp).expr ↔
      ∀ elems, I.HasSort (.seq elemTyp) (.seq elems) → I.func (sliceLenFunc predicateName)
          [I.func (seqConsFunc predicateName elemTyp) [.seq elems]] = .int elems.length := by
  have hbody : ∀ elems : List (Value I.E),
      (I.Holds (Interp.Env.bind [] [⟨"data", .seq elemTyp⟩] [.seq elems]) (Expr.eqCmp
          ((sliceLenFunc predicateName).apply [(seqConsFunc predicateName elemTyp).apply
              [Expr.ofLocal ⟨"data", .seq elemTyp⟩]])
          (.containerOp .seqLen (Expr.ofLocal ⟨"data", .seq elemTyp⟩)
            (Expr.ofBool true) Position.default)) ↔
        I.func (sliceLenFunc predicateName)
          [I.func (seqConsFunc predicateName elemTyp) [.seq elems]] = .int elems.length) := by
    intro elems
    refine Interp.holds_eqCmp (Interp.value_apply ?_) ?_
    · rfl
    · rfl
  rw [lenOfSeq, Interp.holds_forallExpr]
  constructor
  · intro h elems helems
    exact (hbody elems).mp (h [.seq elems] (.cons helems .nil))
  · intro h vals hvals
    obtain ⟨data, rest, hdata, hrest, rfl⟩ := List.forall₂_cons_left_iff.mp hvals
    cases hrest
    obtain ⟨elems, rfl, helems⟩ := hdata
    exact (hbody elems).mpr (h elems ⟨elems, rfl, helems⟩)

/-- It is enough that the lengths are natural numbers. -/
theorem holds_lenPositive
    (h : ∀ val, I.HasSort (.snapshot predicateName) val →
      ∃ length : Nat, I.func (sliceLenFunc predicateName) [val] = .int length) :
    I.Holds [] (lenPositive predicateName).expr := by
  rw [lenPositive, Interp.holds_forallExpr]
  intro vals hvals
  obtain ⟨val, rest, hval, hrest, rfl⟩ := List.forall₂_cons_left_iff.mp hvals
  cases hrest
  obtain ⟨length, hlength⟩ := h val hval
  have hcall : I.value (fun _ _ _ => none)
      (Interp.Env.bind [] [⟨"slice", .snapshot predicateName⟩] [val])
      ((sliceLenFunc predicateName).apply
        [Expr.ofLocal ⟨"slice", .snapshot predicateName⟩]) = some (.int length) := by
    rw [← hlength]
    exact Interp.value_apply (Interp.values_singleton rfl)
  simp [Interp.Holds, Expr.mkBinOp, Interp.value, hcall, Interp.binOpValue_geCmp, Expr.ofInt]

end Sequence

end Prusti.Snapshots

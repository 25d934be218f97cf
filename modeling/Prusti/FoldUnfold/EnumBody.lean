/-
The permissions that the body of a predicate grants in a heap, compared with
the footprint that the fold-unfold algorithm assumes for an enumeration.
-/
import Prusti.Encoder.EnumPredicate
import Prusti.FoldUnfold.Obtain
import Prusti.Vir.Rebase

namespace Prusti.FoldUnfold

open Prusti.Vir Prusti.Lib Prusti.Encoder

variable {R : Type}

variable {name : String} {place : Expr}

variable {predicate : EnumPredicate}

/-- A field of an object, or an instance of a predicate. -/
inductive Granted (R : Type) where
  | acc (object : R) (field : String) (amount : PermAmount)
  | pred (name : String) (object : R) (amount : PermAmount)
deriving DecidableEq

/-- A heap, the local variables, and the truth of pure expressions in them. -/
structure Heap (R : Type) where
  store : String → R
  read : R → String → R
  truth : Expr → Bool

/-- Bind the argument of a predicate. -/
def Heap.bind (heap : Heap R) (name : String) (object : R) (truth : Expr → Bool) : Heap R :=
  { store := fun other => if other = name then object else heap.store other
    read := heap.read
    truth := truth }

/-- The object at a place.  Variants are fields in Viper. -/
def evalPlace (heap : Heap R) : Expr → Option R
  | .localVar var _ => some (heap.store var.name)
  | .variant base fld _ | .field base fld _ =>
    (evalPlace heap base).map fun object => heap.read object fld.name
  | _ => none

/-- The field location that an access permission is about. -/
def grantAcc (heap : Heap R) (amount : PermAmount) : Expr → Option (Granted R)
  | .variant base fld _ | .field base fld _ =>
    (evalPlace heap base).map fun object => .acc object fld.name amount
  | _ => none

/-- The predicate instance that a predicate permission is about. -/
def grantPred (heap : Heap R) (name : String) (amount : PermAmount)
    (place : Expr) : Option (Granted R) :=
  (evalPlace heap place).map fun object => .pred name object amount

/-- The permissions that an assertion grants in a heap.  Disjunctions,
comparisons and the other operators are pure. -/
def grantedBy (heap : Heap R) : Expr → List (Granted R)
  | .fieldAccessPredicate place amount _ => (grantAcc heap amount place).toList
  | .predicateAccessPredicate name arg amount _ => (grantPred heap name amount arg).toList
  | .binOp .and left right _ => grantedBy heap left ++ grantedBy heap right
  | .binOp .implies left right _ =>
    if heap.truth left then grantedBy heap right else []
  | .cond guard thenExpr elseExpr _ =>
    if heap.truth guard then grantedBy heap thenExpr
    else grantedBy heap elseExpr
  | _ => []

/-- The permission that the algorithm assumes to have. -/
def Perm.granted (heap : Heap R) : Perm → Option (Granted R)
  | .acc place amount => grantAcc heap amount place
  | .pred place amount =>
    place.typedRefName.bind fun name => grantPred heap name amount place

/-- An enumeration as the type encoder makes it. -/
structure WellFormedEnum (predicate : EnumPredicate) : Prop where
  typ : ∃ name, predicate.this.typ = .typedRef name
  names : (predicate.variants.map EnumVariant.name).Nodup
  predicates : ∀ variant ∈ predicate.variants,
    variant.predicate.name = predicate.this.typ.name ++ variant.name
  bounds : ∀ {R : Type} (heap : Heap R), grantedBy heap predicate.discriminantBounds = []

theorem grantedBy_conjoin (heap : Heap R) (exprs : List Expr) :
    grantedBy heap (Expr.conjoin exprs) = exprs.flatMap (grantedBy heap) := by
  induction exprs with
  | nil => rfl
  | cons expr exprs ih =>
    change grantedBy heap expr ++ grantedBy heap (Expr.conjoin exprs) = _
    rw [ih, List.flatMap_cons]

theorem grantedBy_disjoin (heap : Heap R) (exprs : List Expr) :
    grantedBy heap (Expr.disjoin exprs) = [] := by
  cases exprs <;> rfl

section Body

variable (predicate : EnumPredicate) (heap : Heap R)

/-- What a variant contributes to the body. -/
theorem grantedBy_variantParts (variant : EnumVariant) :
    (predicate.variantParts variant).flatMap (grantedBy heap) =
      if variant.predicate.hasEmptyBody then []
      else
        .acc (heap.store predicate.this.name) ("enum_" ++ variant.name)
            .write ::
          if heap.truth variant.guard then
            [.pred variant.predicate.name
              (heap.read (heap.store predicate.this.name) ("enum_" ++ variant.name)) .write]
          else [] := by
  unfold EnumPredicate.variantParts
  by_cases hempty : variant.predicate.hasEmptyBody = true
  · rw [if_pos hempty, if_pos hempty]
    rfl
  · rw [if_neg hempty, if_neg hempty]
    by_cases hguard : heap.truth variant.guard = true
    · simp [Expr.mkAnd, Expr.mkBinOp, Expr.implies, grantedBy, hguard,
        Expr.accPermission, StructPredicate.constructAccess, grantAcc,
        grantPred, EnumPredicate.variantLoc, Expr.mkField, evalPlace, Expr.ofLocal]
    · simp [Expr.mkAnd, Expr.mkBinOp, Expr.implies, grantedBy, hguard,
        Expr.accPermission, grantAcc, EnumPredicate.variantLoc, Expr.mkField,
        evalPlace, Expr.ofLocal]

/-- What the body of an enumeration grants. -/
theorem mem_grantedBy_body (granted : Granted R) :
    granted ∈ grantedBy heap predicate.body ↔ granted = .acc (heap.store predicate.this.name)
          predicate.discriminantField.name .write ∨
        granted ∈ grantedBy heap predicate.discriminantBounds ∨
        ∃ variant ∈ predicate.variants,
          variant.predicate.hasEmptyBody = false ∧
            (granted = .acc (heap.store predicate.this.name)
                ("enum_" ++ variant.name) .write ∨
              heap.truth variant.guard = true ∧
                granted = .pred variant.predicate.name
                  (heap.read (heap.store predicate.this.name)
                    ("enum_" ++ variant.name)) .write) := by
  unfold EnumPredicate.body
  rw [grantedBy_conjoin, List.flatMap_cons, List.flatMap_cons,
    List.flatMap_assoc, List.mem_append, List.mem_append, List.mem_flatMap]
  refine or_congr ?_ (or_congr Iff.rfl ?_)
  · simp [Expr.accPermission, grantedBy, grantAcc,
      EnumPredicate.discriminantLoc, Expr.mkField, evalPlace, Expr.ofLocal]
  · refine exists_congr fun variant => and_congr_right fun _ => ?_
    rw [grantedBy_variantParts]
    by_cases hempty : variant.predicate.hasEmptyBody = true
    · simp [hempty]
    · by_cases hguard : heap.truth variant.guard = true
      · simp [hempty, hguard]
      · simp [hempty, hguard]

end Body

/-- The permissions that the algorithm gains by unfolding at a variant. -/
def variantPerms (predicate : EnumPredicate) (typ : Typ) (index : String) : List Perm :=
  [.acc predicate.discriminantLoc .write,
    .acc (.variant (Expr.ofLocal predicate.this) ⟨"enum_" ++ index, typ⟩
      Position.default) .write,
    .pred (.variant (Expr.ofLocal predicate.this) ⟨"enum_" ++ index, typ⟩ Position.default) .write]

theorem enum_getBodyFootprint (htyp : predicate.this.typ = .typedRef name) (index : String) :
    ∃ footprint,
      EnumPredicate.getBodyFootprint predicate ⟨index⟩ = .ok footprint ∧
        footprint.keys = variantPerms predicate (.typedRef (name ++ index)) index := by
  have hvariant : (Expr.ofLocal predicate.this).mkVariant index =
      some (.variant (Expr.ofLocal predicate.this)
        ⟨"enum_" ++ index, .typedRef (name ++ index)⟩ Position.default) := by
    simp [Expr.mkVariant, Expr.ofLocal, Expr.getType, htyp, Typ.variant]
  have hfootprint : EnumPredicate.getBodyFootprint predicate ⟨index⟩ = .ok (HashSet.union
        (EnumPredicate.getUnderapproximatedBodyFootprint predicate)
        (HashSet.ofList (variantPerms predicate (.typedRef (name ++ index)) index).tail)) := by
    unfold EnumPredicate.getBodyFootprint EnumPredicate.getVariantFootprint
    rw [hvariant]
    rfl
  exact ⟨_, hfootprint, rfl⟩

theorem foldReplace_ofLocal (substs : Option Typaram.Substs) (this : LocalVar) (place : Expr) :
    Expr.foldReplace substs (Expr.ofLocal this) place (Expr.ofLocal this) = (place, true) := by
  have hself : (Expr.ofLocal this == Expr.ofLocal this) = true := by
    change (this == this) = true
    exact BEq.rfl
  change Expr.foldReplace substs (Expr.ofLocal this) place (.localVar this Position.default) = _
  rw [Expr.foldReplace]
  exact if_pos hself

/-- Instantiating a permission to a field of `self`. -/
theorem instantiate_field {this : LocalVar} {fld : Field} {pos : Position} {generic perm : Perm}
    (hplace : generic.getPlace = .field (Expr.ofLocal this) fld pos)
    (h : instantiate (Expr.ofLocal this) place generic = .ok perm) :
    ∃ fld' : Field, fld'.name = fld.name ∧ perm = generic.withPlace (.field place fld' pos) := by
  obtain ⟨substs, rfl⟩ := instantiate_eq_ok h
  rw [hplace, Expr.foldReplace, if_neg (by simp [Expr.ofLocal, BEq.beq,
    Expr.eq]), foldReplace_ofLocal]
  exact ⟨_, Expr.patchField_name _ _ fld, rfl⟩

/-- Instantiating a permission to a variant of `self`. -/
theorem instantiate_variant {this : LocalVar} {fld : Field} {pos : Position} {generic perm : Perm}
    (hplace : generic.getPlace = .variant (Expr.ofLocal this) fld pos)
    (h : instantiate (Expr.ofLocal this) place generic = .ok perm) :
    perm = generic.withPlace (.variant place fld pos) := by
  obtain ⟨substs, rfl⟩ := instantiate_eq_ok h
  rw [hplace, Expr.foldReplace, if_neg (by simp [Expr.ofLocal, BEq.beq,
    Expr.eq]), foldReplace_ofLocal]

/-- The instantiated footprint of an enumeration at a variant. -/
theorem enum_placesInPred {env : Env} {order : IterOrder}
    (htyp : predicate.this.typ = .typedRef name) {index : String} {perms : List Perm}
    (h : placesInPred env order (.enum predicate) (some ⟨index⟩) place = .ok perms) :
    ∃ fld : Field, fld.name = predicate.discriminantField.name ∧ perms.Perm
        [.acc (.field place fld Position.default) .write,
          .acc (.variant place ⟨"enum_" ++ index, .typedRef (name ++ index)⟩
            Position.default) .write,
          .pred (.variant place ⟨"enum_" ++ index, .typedRef (name ++ index)⟩
            Position.default) .write] := by
  obtain ⟨perms', h', hperm⟩ := placesInPred_perm h .identity
  obtain ⟨footprint, hfootprint, hkeys⟩ := enum_getBodyFootprint htyp index
  unfold placesInPred at h'
  rw [bind_eq_ok_iff] at h'
  obtain ⟨footprint', hfootprint', hmap⟩ := h'
  change EnumPredicate.getBodyFootprint predicate ⟨index⟩ = _ at hfootprint'
  rw [hfootprint] at hfootprint'
  cases hfootprint'
  change footprint.keys.mapM _ = _ at hmap
  rw [hkeys, mapM_eq_ok_iff] at hmap
  simp only [variantPerms, List.forall₂_cons_left_iff, List.forall₂_nil_left_iff] at hmap
  obtain ⟨first, _, hfirst, ⟨second, _, hsecond, ⟨third, _, hthird, rfl, rfl⟩, rfl⟩, rfl⟩ := hmap
  obtain ⟨fld, hfld, rfl⟩ := instantiate_field rfl hfirst
  obtain rfl := instantiate_variant rfl hsecond
  obtain rfl := instantiate_variant rfl hthird
  exact ⟨fld, hfld, hperm⟩

/-- The footprint at a variant is granted by the body, in every heap where the
guard of the variant holds, if and only if the variant's own body is not
empty. -/
theorem enumFootprint_granted_iff {predicate : EnumPredicate}
    (hwf : WellFormedEnum predicate) {variant : EnumVariant}
    (hmem : variant ∈ predicate.variants) {env : Env} {order : IterOrder}
    {place : Expr} {perms : List Perm}
    (hplaces : placesInPred env order (.enum predicate) (some ⟨variant.name⟩) place = .ok perms)
    (heap : Heap R) {object : R} (hobject : evalPlace heap place = some object)
    {truth : Expr → Bool} (hguard : truth variant.guard = true) :
    (∀ perm ∈ perms,
        ∃ granted ∈ grantedBy (heap.bind predicate.this.name object truth)
            predicate.body,
          perm.granted heap = some granted) ↔
      variant.predicate.hasEmptyBody = false := by
  obtain ⟨name, htyp⟩ := hwf.typ
  obtain ⟨fld, hfld, hperm⟩ := enum_placesInPred htyp hplaces
  have hself : (heap.bind predicate.this.name object truth).store
      predicate.this.name = object := if_pos rfl
  have hname : variant.predicate.name = name ++ variant.name := by
    rw [hwf.predicates variant hmem, htyp]
    rfl
  constructor
  · intro hgranted
    obtain ⟨granted, hbody, heq⟩ := hgranted _
      (hperm.mem_iff.mpr (List.mem_cons_of_mem _ (List.mem_cons_of_mem _
        (List.mem_singleton_self _))))
    have hpred : granted = .pred (name ++ variant.name)
        (heap.read object ("enum_" ++ variant.name)) .write := by
      simp [Perm.granted, Expr.typedRefName, Expr.getType, grantPred, evalPlace, hobject] at heq
      exact heq.symm
    subst hpred
    rcases (mem_grantedBy_body _ _ _).mp hbody with hacc | hbounds | hvariant
    · cases hacc
    · rw [hwf.bounds] at hbounds
      cases hbounds
    · obtain ⟨other, hother, hnonempty, hacc | ⟨_, hpred⟩⟩ := hvariant
      · cases hacc
      · have hsame : name ++ variant.name = name ++ other.name := by
          have hotherName : other.predicate.name = name ++ other.name := by
            rw [hwf.predicates other hother, htyp]
            rfl
          rw [← hotherName]
          exact (Granted.pred.inj hpred).1
        have heq : variant = other :=
          List.inj_on_of_nodup_map hwf.names hmem hother ((String.append_right_inj name).mp hsame)
        rw [heq]
        exact hnonempty
  · intro hnonempty perm hpermMem
    have hcases := hperm.mem_iff.mp hpermMem
    simp only [List.mem_cons, List.not_mem_nil, or_false] at hcases
    rcases hcases with rfl | rfl | rfl
    · refine ⟨.acc object predicate.discriminantField.name .write, ?_, ?_⟩
      · rw [mem_grantedBy_body, hself]
        exact Or.inl rfl
      · simp [Perm.granted, grantAcc, hobject, hfld]
    · refine ⟨.acc object ("enum_" ++ variant.name) .write, ?_, ?_⟩
      · rw [mem_grantedBy_body, hself]
        exact Or.inr (Or.inr ⟨variant, hmem, hnonempty, Or.inl rfl⟩)
      · simp [Perm.granted, grantAcc, hobject]
    · refine ⟨.pred (name ++ variant.name)
        (heap.read object ("enum_" ++ variant.name)) .write, ?_, ?_⟩
      · rw [mem_grantedBy_body, hself, ← hname]
        exact Or.inr (Or.inr ⟨variant, hmem, hnonempty, Or.inr ⟨hguard, rfl⟩⟩)
      · simp [Perm.granted, Expr.typedRefName, Expr.getType, grantPred, evalPlace, hobject]

theorem grantedBy_computeDiscriminantBounds (heap : Heap R)
    (discriminantLoc : Expr) (values : List Int) :
    grantedBy heap (computeDiscriminantBounds discriminantLoc values) = [] := by
  unfold computeDiscriminantBounds
  split
  · rfl
  · exact grantedBy_disjoin heap _

theorem encodeVariant_eq_some {typ : Typ} {discriminantLoc : Expr}
    {variant : VariantDef} {encoded : EnumVariant}
    (h : encodeVariant typ discriminantLoc variant = some encoded) :
    encoded.name = variant.name ∧ encoded.predicate.name = typ.name ++ variant.name := by
  unfold encodeVariant at h
  rw [Option.bind_eq_bind, Option.bind_eq_some_iff] at h
  obtain ⟨variantTyp, htyp, h⟩ := h
  rw [Option.bind_eq_bind, Option.bind_eq_some_iff] at h
  obtain ⟨predicate, hpredicate, h⟩ := h
  cases h
  refine ⟨rfl, ?_⟩
  unfold StructPredicate.new at hpredicate
  rw [Option.map_eq_some_iff] at hpredicate
  obtain ⟨permissions, _, rfl⟩ := hpredicate
  cases typ <;> cases htyp
  rfl

/-- The enumerations made by the type encoder are well-formed. -/
theorem encodeEnumPredicate_wellFormed {discriminantField : Field} {variants : List VariantDef}
    (h : encodeEnumPredicate (.typedRef name) discriminantField variants = some predicate)
    (hnames : (variants.map VariantDef.name).Nodup) :
    WellFormedEnum predicate := by
  unfold encodeEnumPredicate at h
  rw [Option.bind_eq_bind, Option.bind_eq_some_iff] at h
  obtain ⟨encoded, hencoded, h⟩ := h
  cases h
  have hrel : List.Forall₂ (fun variant encoded =>
      encoded.name = variant.name ∧
        encoded.predicate.name = name ++ variant.name) variants encoded := by
    refine (mapM_eq_some_iff.mp hencoded).imp ?_
    intro variant encoded hvariant
    exact encodeVariant_eq_some hvariant
  refine ⟨⟨name, rfl⟩, ?_, ?_, ?_⟩
  · have heq : encoded.map EnumVariant.name = variants.map VariantDef.name := by
      clear hencoded hnames
      induction hrel with
      | nil => rfl
      | cons hhead _ ih => rw [List.map_cons, List.map_cons, ih, hhead.1]
    rw [heq]
    exact hnames
  · clear hencoded hnames
    induction hrel with
    | nil =>
      intro variant hvariant
      cases hvariant
    | cons hhead _ ih =>
      intro variant hvariant
      rcases List.mem_cons.mp hvariant with rfl | hvariant
      · rw [hhead.2, hhead.1]
        rfl
      · exact ih variant hvariant
  · intro R heap
    exact grantedBy_computeDiscriminantBounds heap _ _

namespace Witness

/-- `enum E { A, B(i32) }` -/
def variantDefs : List VariantDef := [⟨0, "A", []⟩, ⟨1, "B", [⟨"f$0", .typedRef "i32"⟩]⟩]

def enumE? : Option EnumPredicate :=
  encodeEnumPredicate (.typedRef "E") ⟨"discriminant", .int⟩ variantDefs

def enumE : EnumPredicate := enumE?.get rfl

def variantA : EnumVariant := enumE.variants.get ⟨0, by decide⟩

def variantB : EnumVariant := enumE.variants.get ⟨1, by decide⟩

def e : Expr := .ofLocal ⟨"e", .typedRef "E"⟩

/-- A heap of numbered objects. -/
def heap : Heap Nat :=
  { store := fun _ => 0
    read := fun object _ => object + 1
    truth := fun _ => true }

theorem wellFormed_enumE : WellFormedEnum enumE :=
  encodeEnumPredicate_wellFormed (show encodeEnumPredicate (.typedRef "E") ⟨"discriminant", .int⟩
      variantDefs = some enumE from rfl) (by decide)

/-- At the variant `A`, which has no fields, the algorithm assumes the
predicate of the variant, and the body grants no permission to it. -/
theorem enumFootprint_not_granted_emptyVariant :
    WellFormedEnum enumE ∧ variantA ∈ enumE.variants ∧
      ∃ perms, placesInPred env .identity (.enum enumE) (some ⟨"A"⟩) e = .ok perms ∧
        ∃ perm ∈ perms, ∀ granted ∈
          grantedBy (heap.bind enumE.this.name 0 fun expr =>
            expr == variantA.guard) enumE.body,
            perm.granted heap ≠ some granted := by
  refine ⟨wellFormed_enumE, List.get_mem _ _, _, rfl, ?_⟩
  refine ⟨_, List.mem_cons_of_mem _ (List.mem_cons_of_mem _ (List.mem_singleton_self _)), ?_⟩
  decide

theorem enumFootprint_granted_variantB :
    ∃ perms, placesInPred env .identity (.enum enumE) (some ⟨"B"⟩) e = .ok perms ∧
      ∀ perm ∈ perms, ∃ granted ∈
        grantedBy (heap.bind enumE.this.name 0 fun expr =>
          expr == variantB.guard) enumE.body,
          perm.granted heap = some granted := by
  have hplaces : ∃ perms, placesInPred env .identity (.enum enumE)
      (some ⟨variantB.name⟩) e = .ok perms := ⟨_, rfl⟩
  obtain ⟨perms, hplaces⟩ := hplaces
  refine ⟨perms, hplaces, ?_⟩
  exact (enumFootprint_granted_iff wellFormed_enumE (List.get_mem _ _) hplaces
    heap rfl (by decide)).mpr rfl

end Witness

end Prusti.FoldUnfold

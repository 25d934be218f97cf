/-
The data that expressions feed to a hash function, and what makes a set of expressions fit
for the hash maps and sets: there the equality is an equivalence that agrees with hashing.
-/
import Prusti.Vir.ExprEquality

namespace Prusti.Vir

/-- What is written to a hasher. -/
inductive HashItem where
  | discriminant (index : Nat)
  | length (len : Nat)
  | str (value : String)
  | int (value : Int)
  | bool (value : Bool)
deriving Repr, DecidableEq

/-- The hash function of a sequence: its length and its elements. -/
def hashSeq {α : Type} (hash : α → List HashItem) (elems : List α) : List HashItem :=
  .length elems.length :: elems.flatMap hash

def hashOption {α : Type} (hash : α → List HashItem) : Option α → List HashItem
  | none => [.discriminant 0]
  | some value => .discriminant 1 :: hash value

/-- The hash function of types looks at the outermost constructor only. -/
def Typ.hash (typ : Typ) : List HashItem := [.discriminant typ.ctorIdx]

def LocalVar.hash (var : LocalVar) : List HashItem := .str var.name :: var.typ.hash

def Field.hash (field : Field) : List HashItem := .str field.name :: field.typ.hash

def PermAmount.hash (amount : PermAmount) : List HashItem := [.discriminant amount.ctorIdx]

def Borrow.hash (borrow : Borrow) : List HashItem := [.int borrow.index]

def EnumVariantIndex.hash (index : EnumVariantIndex) : List HashItem := [.str index.name]

def UnaryOpKind.hash (kind : UnaryOpKind) : List HashItem := [.discriminant kind.ctorIdx]

def BinOpKind.hash (kind : BinOpKind) : List HashItem := [.discriminant kind.ctorIdx]

def ContainerOpKind.hash (kind : ContainerOpKind) : List HashItem := [.discriminant kind.ctorIdx]

def Const.hash : Const → List HashItem
  | bool value => [.discriminant 0, .bool value]
  | int value => [.discriminant 1, .int value]
  | bigInt digits => [.discriminant 2, .str digits]
  | fnPtr => [.discriminant 3]

namespace Expr

mutual

/-- The hash function of expressions, which ignores positions, the signature of applied
functions, and all but the name of the functions of domains. -/
def hash (expr : Expr) : List HashItem :=
  .discriminant expr.ctorIdx :: match expr with
    | localVar var _ => var.hash
    | variant base index _ => hash base ++ index.hash
    | field base fld _ => hash base ++ fld.hash
    | addrOf base typ _ => hash base ++ typ.hash
    | labelledOld label base _ => .str label :: hash base
    | const value _ => value.hash
    | magicWand lhs rhs borrow _ => hash lhs ++ hash rhs ++ hashOption Borrow.hash borrow
    | predicateAccessPredicate name arg perm _ => .str name :: (hash arg ++ perm.hash)
    | fieldAccessPredicate base perm _ => hash base ++ perm.hash
    | unaryOp op arg _ => op.hash ++ hash arg
    | binOp op left right _ => op.hash ++ hash left ++ hash right
    | containerOp op left right _ => op.hash ++ hash left ++ hash right
    | seq typ elems _ => typ.hash ++ .length elems.length :: hashList elems
    | cond guard thenExpr elseExpr _ => hash guard ++ hash thenExpr ++ hash elseExpr
    | forAll vars triggers body _ | exist vars triggers body _ =>
      hashSeq LocalVar.hash vars ++ .length triggers.length :: hashTriggers triggers ++ hash body
    | letExpr var expr body _ => var.hash ++ hash expr ++ hash body
    | funcApp name args _ _ _ => .str name :: .length args.length :: hashList args
    | domainFuncApp func args _ => .str func.name :: .length args.length :: hashList args
    | unfolding name args base perm index _ =>
      .str name :: .length args.length :: (hashList args ++ hash base ++ perm.hash ++
        hashOption EnumVariantIndex.hash index)
    | inhaleExhale inhaleExpr exhaleExpr _ => hash inhaleExpr ++ hash exhaleExpr
    | downcast base enumPlace fld => hash base ++ hash enumPlace ++ fld.hash
    | snapApp expr _ => hash expr

def hashList : List Expr → List HashItem
  | [] => []
  | expr :: rest => hash expr ++ hashList rest

def hashTriggers : List (List Expr) → List HashItem
  | [] => []
  | trigger :: rest => .length trigger.length :: hashList trigger ++ hashTriggers rest

end

end Expr

/-- A type that stands for those of its kind. -/
def TypeId.typ : TypeId → Typ
  | int => .int
  | bool => .bool
  | ref => .typedRef ""
  | seq => .seq .int
  | domain => .domain ""
  | snapshot => .snapshot ""

/-- What the equality of types sees. -/
def Typ.erase (typ : Typ) : Typ := typ.getId.typ

theorem Typ.erase_eq {left right : Typ} (h : (left == right) = true) :
    left.erase = right.erase := by
  rw [Typ.beq_iff] at h
  rw [erase, erase, h]

@[simp] theorem Typ.beq_erase (typ : Typ) : (typ == typ.erase) = true := by
  rw [Typ.beq_iff]
  cases typ <;> rfl

@[simp] theorem Typ.hash_erase (typ : Typ) : typ.erase.hash = typ.hash := by
  cases typ <;> rfl

def LocalVar.erase (var : LocalVar) : LocalVar := ⟨var.name, var.typ.erase⟩

theorem LocalVar.erase_eq {left right : LocalVar} (h : (left == right) = true) :
    left.erase = right.erase := by
  rw [LocalVar.beq_iff] at h
  rw [erase, erase, h.1, Typ.erase_eq h.2]

@[simp] theorem LocalVar.beq_erase (var : LocalVar) : (var == var.erase) = true :=
  (LocalVar.beq_iff _ _).mpr ⟨rfl, Typ.beq_erase _⟩

@[simp] theorem LocalVar.hash_erase (var : LocalVar) : var.erase.hash = var.hash := by
  rw [hash, erase, Typ.hash_erase, hash]

def Field.erase (field : Field) : Field := ⟨field.name, field.typ.erase⟩

theorem Field.erase_eq {left right : Field} (h : (left == right) = true) :
    left.erase = right.erase := by
  rw [Field.beq_iff] at h
  rw [erase, erase, h.1, Typ.erase_eq h.2]

@[simp] theorem Field.beq_erase (field : Field) : (field == field.erase) = true :=
  (Field.beq_iff _ _).mpr ⟨rfl, Typ.beq_erase _⟩

@[simp] theorem Field.hash_erase (field : Field) : field.erase.hash = field.hash := by
  rw [hash, erase, Typ.hash_erase, hash]

section Lists

variable {α : Type} [BEq α] {f : α → α}

theorem map_eq_of_beq (hf : ∀ {left right : α}, (left == right) = true → f left = f right)
    {left right : List α} (h : (left == right) = true) : left.map f = right.map f := by
  induction left generalizing right with
  | nil =>
    cases right with
    | nil => rfl
    | cons => cases h
  | cons first left ih =>
    cases right with
    | nil => cases h
    | cons first' right =>
      rw [List.cons_beq_cons, Bool.and_eq_true] at h
      rw [List.map_cons, List.map_cons, hf h.1, ih h.2]

theorem beq_map (hf : ∀ elem, (elem == f elem) = true) (elems : List α) :
    (elems == elems.map f) = true := by
  induction elems with
  | nil => rfl
  | cons elem elems ih => rw [List.map_cons, List.cons_beq_cons, hf, ih, Bool.and_self]

end Lists

def DomainFunc.erase (func : DomainFunc) : DomainFunc :=
  { func with
    formalArgs := func.formalArgs.map LocalVar.erase, returnType := func.returnType.erase }

theorem DomainFunc.erase_eq {left right : DomainFunc} (h : (left == right) = true) :
    left.erase = right.erase := by
  obtain ⟨hname, hargs, htyp, hunique, hdomain⟩ := (DomainFunc.beq_iff _ _).mp h
  rw [erase, erase, hname, map_eq_of_beq LocalVar.erase_eq hargs, Typ.erase_eq htyp, hunique,
    hdomain]

@[simp] theorem DomainFunc.beq_erase (func : DomainFunc) : (func == func.erase) = true :=
  (DomainFunc.beq_iff _ _).mpr ⟨rfl, beq_map LocalVar.beq_erase _, Typ.beq_erase _, rfl, rfl⟩

namespace Expr

variable {f : Expr → Expr}

mutual

/-- The expression without its positions, the signature of its functions and what the
equality of types does not see. -/
def erase : Expr → Expr
  | localVar var _ => localVar var.erase .default
  | variant base index _ => variant (erase base) index.erase .default
  | field base fld _ => field (erase base) fld.erase .default
  | addrOf base typ _ => addrOf (erase base) typ.erase .default
  | labelledOld label base _ => labelledOld label (erase base) .default
  | const value _ => const value .default
  | magicWand lhs rhs borrow _ => magicWand (erase lhs) (erase rhs) borrow .default
  | predicateAccessPredicate name arg perm _ =>
    predicateAccessPredicate name (erase arg) perm .default
  | fieldAccessPredicate base perm _ => fieldAccessPredicate (erase base) perm .default
  | unaryOp op arg _ => unaryOp op (erase arg) .default
  | binOp op left right _ => binOp op (erase left) (erase right) .default
  | containerOp op left right _ => containerOp op (erase left) (erase right) .default
  | seq typ elems _ => seq typ.erase (eraseList elems) .default
  | unfolding name args base perm index _ =>
    unfolding name (eraseList args) (erase base) perm index .default
  | cond guard thenExpr elseExpr _ =>
    cond (erase guard) (erase thenExpr) (erase elseExpr) .default
  | forAll vars triggers body _ =>
    forAll (vars.map LocalVar.erase) (eraseTriggers triggers) (erase body) .default
  | exist vars triggers body _ =>
    exist (vars.map LocalVar.erase) (eraseTriggers triggers) (erase body) .default
  | letExpr var expr body _ => letExpr var.erase (erase expr) (erase body) .default
  | funcApp name args _ _ _ => funcApp name (eraseList args) [] .int .default
  | domainFuncApp func args _ => domainFuncApp func.erase (eraseList args) .default
  | inhaleExhale inhaleExpr exhaleExpr _ =>
    inhaleExhale (erase inhaleExpr) (erase exhaleExpr) .default
  | downcast base enumPlace fld => downcast (erase base) (erase enumPlace) fld.erase
  | snapApp expr _ => snapApp (erase expr) .default

def eraseList : List Expr → List Expr
  | [] => []
  | expr :: rest => erase expr :: eraseList rest

def eraseTriggers : List (List Expr) → List (List Expr)
  | [] => []
  | trigger :: rest => eraseList trigger :: eraseTriggers rest

end

theorem eraseList_eq_map (exprs : List Expr) : eraseList exprs = exprs.map erase := by
  induction exprs with
  | nil => rfl
  | cons expr exprs ih => rw [eraseList, ih, List.map_cons]

theorem eraseTriggers_eq_map (triggers : List (List Expr)) :
    eraseTriggers triggers = triggers.map (List.map erase) := by
  induction triggers with
  | nil => rfl
  | cons trigger triggers ih => rw [eraseTriggers, ih, eraseList_eq_map, List.map_cons]

/-- What is equal looks the same to the equality. -/
theorem erase_eq_of_eq :
    (∀ left right : Expr, eq left right = true → left.erase = right.erase) ∧
      (∀ left right : List (List Expr), eqTriggers left right = true →
        eraseTriggers left = eraseTriggers right) ∧
      (∀ left right : List Expr, eqList left right = true → eraseList left = eraseList right) := by
  apply Expr.eq.mutual_induct
  case case22 =>
    intros
    rename_i h
    rw [eq] at h
    · cases h
    all_goals assumption
  case case25 | case28 =>
    intro left right hnil hcons h
    simp_all [eqList, eqTriggers]
  all_goals intros
  all_goals first | rfl | skip
  all_goals rename_i h
  all_goals simp only [eq, eqList, eqTriggers, Bool.and_eq_true, beq_iff_eq] at h
  all_goals simp only [erase, eraseList, eraseTriggers]
  all_goals grind [LocalVar.erase_eq, Field.erase_eq, Typ.erase_eq, DomainFunc.erase_eq,
    map_eq_of_beq]

theorem eqList_map {exprs : List Expr} (h : ∀ expr ∈ exprs, eq expr (f expr) = true) :
    eqList exprs (exprs.map f) = true := by
  induction exprs with
  | nil => rw [List.map_nil, eqList]
  | cons expr exprs ih =>
    rw [List.forall_mem_cons] at h
    rw [List.map_cons, eqList, h.1, ih h.2, Bool.and_self]

theorem eqTriggers_map {triggers : List (List Expr)}
    (h : ∀ trigger ∈ triggers, ∀ part ∈ trigger, eq part (f part) = true) :
    eqTriggers triggers (triggers.map (List.map f)) = true := by
  induction triggers with
  | nil => rw [List.map_nil, eqTriggers]
  | cons trigger triggers ih =>
    rw [List.forall_mem_cons] at h
    rw [List.map_cons, eqTriggers, eqList_map h.1, ih h.2, Bool.and_self]

/-- The equality sees no more than what is left. -/
theorem eq_erase {expr : Expr} (h : Compared expr) : eq expr expr.erase = true := by
  induction expr using Expr.children_induction with
  | h expr ih ihtriggers =>
  obtain ⟨hself, hchildren, htriggers⟩ := compared_iff.mp h
  replace ih := fun child hchild => ih child hchild (hchildren child hchild)
  replace ihtriggers := fun trigger htrigger part hpart =>
    ihtriggers trigger htrigger part hpart (htriggers trigger htrigger part hpart)
  cases expr with
  | inhaleExhale | downcast => cases hself
  | seq | funcApp | domainFuncApp =>
    simp only [erase, eq, eraseList_eq_map, Bool.and_eq_true, BEq.rfl, Typ.beq_erase,
      DomainFunc.beq_erase, true_and]
    exact eqList_map ih
  | unfolding name args base =>
    rw [children, List.forall_mem_append, List.forall_mem_singleton] at ih
    simp [erase, eq, eraseList_eq_map, eqList_map ih.1, ih.2]
  | forAll vars triggers body | exist vars triggers body =>
    rw [children, List.forall_mem_singleton] at ih
    simp only [erase, eq, eraseTriggers_eq_map, Bool.and_eq_true, ih, and_true,
      beq_map LocalVar.beq_erase, true_and]
    exact eqTriggers_map ihtriggers
  | _ => simp_all [erase, eq, children]

theorem hashList_map {exprs : List Expr} (h : ∀ expr ∈ exprs, (f expr).hash = expr.hash) :
    hashList (exprs.map f) = hashList exprs := by
  induction exprs with
  | nil => rfl
  | cons expr exprs ih =>
    rw [List.forall_mem_cons] at h
    rw [List.map_cons, hashList, hashList, h.1, ih h.2]

theorem hashTriggers_map {triggers : List (List Expr)}
    (h : ∀ trigger ∈ triggers, ∀ part ∈ trigger, (f part).hash = part.hash) :
    hashTriggers (triggers.map (List.map f)) = hashTriggers triggers := by
  induction triggers with
  | nil => rfl
  | cons trigger triggers ih =>
    rw [List.forall_mem_cons] at h
    rw [List.map_cons, hashTriggers, hashTriggers, List.length_map, hashList_map h.1, ih h.2]

theorem hashSeq_map_erase (vars : List LocalVar) :
    hashSeq LocalVar.hash (vars.map LocalVar.erase) = hashSeq LocalVar.hash vars := by
  simp [hashSeq, List.flatMap_map]

/-- The hash function sees no more than the equality. -/
theorem hash_erase (expr : Expr) : expr.erase.hash = expr.hash := by
  induction expr using Expr.children_induction with
  | h expr ih ihtriggers =>
  cases expr with
  | seq | funcApp | domainFuncApp =>
    rw [children] at ih
    simp only [erase, hash, eraseList_eq_map, hashList_map ih, List.length_map, Typ.hash_erase]
    rfl
  | unfolding name args base =>
    rw [children, List.forall_mem_append, List.forall_mem_singleton] at ih
    simp only [erase, hash, eraseList_eq_map, hashList_map ih.1, ih.2, List.length_map]
    rfl
  | forAll vars triggers body | exist vars triggers body =>
    rw [children, List.forall_mem_singleton] at ih
    rw [Expr.triggers] at ihtriggers
    simp only [erase, hash, eraseTriggers_eq_map, List.length_map, hashSeq_map_erase, ih,
      hashTriggers_map ihtriggers]
    rfl
  | _ =>
    simp_all [erase, hash, children]
    try rfl

/-- The expressions of a set can be keys: their comparison fails no assertion, it is an
equivalence, it ignores what `erase` drops and nothing else, and it agrees with hashing. -/
structure LawfulKeys (exprs : Set Expr) : Prop where
  passes : ∀ left ∈ exprs, ∀ right ∈ exprs, eqChecked left right ≠ none
  refl : ∀ expr ∈ exprs, eqChecked expr expr = some true
  symm : ∀ left ∈ exprs, ∀ right ∈ exprs,
    eqChecked left right = some true → eqChecked right left = some true
  trans : ∀ left ∈ exprs, ∀ middle ∈ exprs, ∀ right ∈ exprs,
    eqChecked left middle = some true → eqChecked middle right = some true →
      eqChecked left right = some true
  ignores : ∀ left ∈ exprs, ∀ right ∈ exprs,
    (eqChecked left right = some true ↔ left.erase = right.erase)
  hash_eq : ∀ left ∈ exprs, ∀ right ∈ exprs,
    eqChecked left right = some true → left.hash = right.hash

/-- Between expressions that have an arm for every node, equality is equality of what
`erase` leaves. -/
theorem eqChecked_iff_erase {left right : Expr} (hleft : Compared left) (hright : Compared right) :
    eqChecked left right = some true ↔ left.erase = right.erase := by
  rw [eqChecked_of_compared.1 left right hleft, Option.some.injEq]
  constructor
  · exact erase_eq_of_eq.1 left right
  · intro herase
    have hcommon : (left == right.erase) = true := by
      rw [← herase]
      exact eq_erase hleft
    exact BEq.trans hcommon (BEq.symm (eq_erase hright))

/-- A set of expressions can be used as keys exactly when the equality has an arm for every
node that occurs in them. -/
theorem lawfulKeys_iff (exprs : Set Expr) : LawfulKeys exprs ↔ ∀ expr ∈ exprs, Compared expr := by
  constructor
  · intro hkeys expr hexpr
    exact compared_of_eqChecked.1 expr expr (hkeys.refl expr hexpr)
  · intro h
    have hiff : ∀ left ∈ exprs, ∀ right ∈ exprs,
        (eqChecked left right = some true ↔ left.erase = right.erase) :=
      fun left hleft right hright => eqChecked_iff_erase (h left hleft) (h right hright)
    refine ⟨?_, ?_, ?_, ?_, hiff, ?_⟩
    · intro left hleft right _ hnone
      rw [eqChecked_of_compared.1 left right (h left hleft)] at hnone
      cases hnone
    · intro expr hexpr
      exact (hiff expr hexpr expr hexpr).mpr rfl
    · intro left hleft right hright heq
      rw [hiff left hleft right hright] at heq
      exact (hiff right hright left hleft).mpr heq.symm
    · intro left hleft middle hmiddle right hright heq heq'
      rw [hiff left hleft middle hmiddle] at heq
      rw [hiff middle hmiddle right hright] at heq'
      exact (hiff left hleft right hright).mpr (heq.trans heq')
    · intro left hleft right hright heq
      rw [hiff left hleft right hright] at heq
      rw [← hash_erase left, heq, hash_erase]

namespace Witness

/-- The assertion fails when an inhale-exhale expression is compared with itself. -/
theorem inhaleExhale_not_lawfulKeys :
    ¬ LawfulKeys {inhaleExhale (const (.bool true) .default) (const (.bool true) .default)
      .default} := by
  intro hkeys
  exact hkeys.passes _ rfl _ rfl rfl

end Witness

end Expr

end Prusti.Vir

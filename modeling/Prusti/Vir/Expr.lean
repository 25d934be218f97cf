/-
The expressions of the Viper intermediate representation, their hand-written
equality, and the syntactic helpers shared by the encoder passes.
-/
import Prusti.Vir.Common

namespace Prusti.Vir

/-- Expressions.  A trigger is the list of its expressions. -/
inductive Expr where
  /-- A local variable. -/
  | localVar (var : LocalVar) (pos : Position)
  /-- An enum variant: base, variant index. -/
  | variant (base : Expr) (variant : Field) (pos : Position)
  /-- A field access. -/
  | field (base : Expr) (field : Field) (pos : Position)
  /-- The inverse of a `val_ref` field access. -/
  | addrOf (base : Expr) (typ : Typ) (pos : Position)
  | labelledOld (label : String) (base : Expr) (pos : Position)
  | const (const : Const) (pos : Position)
  | magicWand (lhs rhs : Expr) (borrow : Option Borrow) (pos : Position)
  | predicateAccessPredicate (name : String) (arg : Expr) (permAmount : PermAmount) (pos : Position)
  | fieldAccessPredicate (base : Expr) (permAmount : PermAmount) (pos : Position)
  | unaryOp (kind : UnaryOpKind) (arg : Expr) (pos : Position)
  | binOp (kind : BinOpKind) (left right : Expr) (pos : Position)
  /-- An operation on a Viper container. -/
  | containerOp (kind : ContainerOpKind) (left right : Expr) (pos : Position)
  | seq (typ : Typ) (elems : List Expr) (pos : Position)
  | unfolding (name : String) (args : List Expr) (base : Expr)
      (permAmount : PermAmount) (variant : Option EnumVariantIndex)
      (pos : Position)
  | cond (guard thenExpr elseExpr : Expr) (pos : Position)
  | forAll (vars : List LocalVar) (triggers : List (List Expr)) (body : Expr) (pos : Position)
  | exist (vars : List LocalVar) (triggers : List (List Expr)) (body : Expr) (pos : Position)
  | letExpr (var : LocalVar) (expr body : Expr) (pos : Position)
  | funcApp (name : String) (args : List Expr) (formalArgs : List LocalVar)
      (returnType : Typ) (pos : Position)
  | domainFuncApp (func : DomainFunc) (args : List Expr) (pos : Position)
  | inhaleExhale (inhaleExpr exhaleExpr : Expr) (pos : Position)
  /-- At this point the enum place can be downcast to the variant. -/
  | downcast (base enumPlace : Expr) (field : Field)
  | snapApp (expr : Expr) (pos : Position)
deriving Repr

namespace Expr

mutual

/-- The equality of expressions ignores positions, the names of types and the
signature of applied functions.  Two `inhaleExhale` or two `downcast` nodes are
never equal: no arm of the source compares them. -/
def eq : Expr → Expr → Bool
  | localVar var _, localVar var' _ => var == var'
  | variant base index _, variant base' index' _ =>
    eq base base' && index == index'
  | field base fld _, field base' fld' _ => eq base base' && fld == fld'
  | addrOf base typ _, addrOf base' typ' _ => eq base base' && typ == typ'
  | labelledOld label base _, labelledOld label' base' _ =>
    label == label' && eq base base'
  | const value _, const value' _ => value == value'
  | magicWand lhs rhs borrow _, magicWand lhs' rhs' borrow' _ =>
    eq lhs lhs' && eq rhs rhs' && borrow == borrow'
  | predicateAccessPredicate name arg perm _, predicateAccessPredicate name' arg' perm' _ =>
      name == name' && eq arg arg' && perm == perm'
  | fieldAccessPredicate base perm _, fieldAccessPredicate base' perm' _ =>
    eq base base' && perm == perm'
  | unaryOp op arg _, unaryOp op' arg' _ => op == op' && eq arg arg'
  | binOp op left right _, binOp op' left' right' _ =>
    op == op' && eq left left' && eq right right'
  | containerOp op left right _, containerOp op' left' right' _ =>
    op == op' && eq left left' && eq right right'
  | seq typ elems _, seq typ' elems' _ => typ == typ' && eqList elems elems'
  | unfolding name args base perm index _, unfolding name' args' base' perm' index' _ =>
      name == name' && eqList args args' && eq base base' && perm == perm' && index == index'
  | cond guard thenExpr elseExpr _, cond guard' thenExpr' elseExpr' _ =>
    eq guard guard' && eq thenExpr thenExpr' && eq elseExpr elseExpr'
  | forAll vars triggers body _, forAll vars' triggers' body' _ =>
    vars == vars' && eqTriggers triggers triggers' && eq body body'
  | exist vars triggers body _, exist vars' triggers' body' _ =>
    vars == vars' && eqTriggers triggers triggers' && eq body body'
  | letExpr var expr body _, letExpr var' expr' body' _ =>
    var == var' && eq expr expr' && eq body body'
  | funcApp name args _ _ _, funcApp name' args' _ _ _ =>
    name == name' && eqList args args'
  | domainFuncApp func args _, domainFuncApp func' args' _ =>
    func == func' && eqList args args'
  | snapApp expr _, snapApp expr' _ => eq expr expr'
  | _, _ => false

def eqList : List Expr → List Expr → Bool
  | [], [] => true
  | expr :: rest, expr' :: rest' => eq expr expr' && eqList rest rest'
  | _, _ => false

def eqTriggers : List (List Expr) → List (List Expr) → Bool
  | [], [] => true
  | trigger :: rest, trigger' :: rest' =>
    eqList trigger trigger' && eqTriggers rest rest'
  | _, _ => false

end

instance : BEq Expr := ⟨Expr.eq⟩

attribute [local simp] eq eqList eqTriggers

private theorem eq_symm_all :
    (∀ left right : Expr, eq left right = true → eq right left = true) ∧
      (∀ left right : List (List Expr), eqTriggers left right = true →
        eqTriggers right left = true) ∧
      (∀ left right : List Expr, eqList left right = true → eqList right left = true) := by
  apply Expr.eq.mutual_induct
  all_goals intros
  all_goals simp_all [BEq.comm]

private theorem eq_trans_all :
    (∀ left middle : Expr, eq left middle = true →
      ∀ right, eq middle right = true → eq left right = true) ∧
      (∀ left middle : List (List Expr), eqTriggers left middle = true →
        ∀ right, eqTriggers middle right = true → eqTriggers left right = true) ∧
      (∀ left middle : List Expr, eqList left middle = true →
        ∀ right, eqList middle right = true → eqList left right = true) := by
  apply Expr.eq.mutual_induct
  case case22 => intro _ _ _ h; simp_all
  case case25 => intro _ _ _ _ h; simp_all
  case case28 => intro _ _ _ _ h; simp_all
  all_goals intros
  all_goals rename_i h right h'
  all_goals cases right <;> first
    | exact absurd h' Bool.false_ne_true
    | skip
  all_goals simp only [eq, eqList, eqTriggers, Bool.and_eq_true, beq_iff_eq]
    at h h' ⊢
  all_goals grind [BEq.trans]

instance : PartialEquivBEq Expr where
  symm {left right} h := eq_symm_all.1 left right h
  trans {left middle right} h h' := eq_trans_all.1 left middle h right h'

end Expr

end Prusti.Vir

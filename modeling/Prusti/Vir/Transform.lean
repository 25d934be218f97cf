/-
Types and positions of expressions, the constructors used by the encoder, and
the replacement of places.
-/
import Prusti.Vir.Place
import Prusti.Vir.Typaram

namespace Prusti.Vir.Expr

/-- The position of an expression; a downcast has that of its base. -/
def pos : Expr → Position
  | localVar _ pos | variant _ _ pos | field _ _ pos | addrOf _ _ pos
  | labelledOld _ _ pos | const _ pos | magicWand _ _ _ pos
  | predicateAccessPredicate _ _ _ pos | fieldAccessPredicate _ _ pos
  | unaryOp _ _ pos | binOp _ _ _ pos | containerOp _ _ _ pos | seq _ _ pos
  | unfolding _ _ _ _ _ pos | cond _ _ _ pos | forAll _ _ _ pos
  | exist _ _ _ pos | letExpr _ _ _ pos | funcApp _ _ _ _ pos
  | domainFuncApp _ _ pos | inhaleExhale _ _ pos | snapApp _ pos => pos
  | downcast base _ _ => base.pos

/-- A downcast has no position of its own to set. -/
def setPos (expr : Expr) (pos : Position) : Expr :=
  match expr with
  | localVar var _ => localVar var pos
  | variant base index _ => variant base index pos
  | field base fld _ => field base fld pos
  | addrOf base typ _ => addrOf base typ pos
  | labelledOld label base _ => labelledOld label base pos
  | const value _ => const value pos
  | magicWand lhs rhs borrow _ => magicWand lhs rhs borrow pos
  | predicateAccessPredicate name arg perm _ =>
    predicateAccessPredicate name arg perm pos
  | fieldAccessPredicate base perm _ => fieldAccessPredicate base perm pos
  | unaryOp op arg _ => unaryOp op arg pos
  | binOp op left right _ => binOp op left right pos
  | containerOp op left right _ => containerOp op left right pos
  | seq typ elems _ => seq typ elems pos
  | unfolding name args base perm index _ =>
    unfolding name args base perm index pos
  | cond guard thenExpr elseExpr _ => cond guard thenExpr elseExpr pos
  | forAll vars triggers body _ => forAll vars triggers body pos
  | exist vars triggers body _ => exist vars triggers body pos
  | letExpr var expr body _ => letExpr var expr body pos
  | funcApp name args formalArgs typ _ => funcApp name args formalArgs typ pos
  | domainFuncApp func args _ => domainFuncApp func args pos
  | inhaleExhale inhaleExpr exhaleExpr _ =>
    inhaleExhale inhaleExpr exhaleExpr pos
  | snapApp expr _ => snapApp expr pos
  | downcast base enumPlace fld => downcast base enumPlace fld

mutual

/-- Apply a function to all sub-expressions, the innermost first.  Triggers
are not visited. -/
def foldExpr (f : Expr → Expr) : Expr → Expr
  | localVar var pos => f (localVar var pos)
  | variant base index pos => f (variant (foldExpr f base) index pos)
  | field base fld pos => f (field (foldExpr f base) fld pos)
  | addrOf base typ pos => f (addrOf (foldExpr f base) typ pos)
  | labelledOld label base pos => f (labelledOld label (foldExpr f base) pos)
  | const value pos => f (const value pos)
  | magicWand lhs rhs borrow pos =>
    f (magicWand (foldExpr f lhs) (foldExpr f rhs) borrow pos)
  | predicateAccessPredicate name arg perm pos =>
    f (predicateAccessPredicate name (foldExpr f arg) perm pos)
  | fieldAccessPredicate base perm pos =>
    f (fieldAccessPredicate (foldExpr f base) perm pos)
  | unaryOp op arg pos => f (unaryOp op (foldExpr f arg) pos)
  | binOp op left right pos =>
    f (binOp op (foldExpr f left) (foldExpr f right) pos)
  | containerOp op left right pos =>
    f (containerOp op (foldExpr f left) (foldExpr f right) pos)
  | seq typ elems pos => f (seq typ (foldExprs f elems) pos)
  | unfolding name args base perm index pos =>
    f (unfolding name (foldExprs f args) (foldExpr f base) perm index pos)
  | cond guard thenExpr elseExpr pos =>
    f (cond (foldExpr f guard) (foldExpr f thenExpr) (foldExpr f elseExpr) pos)
  | forAll vars triggers body pos =>
    f (forAll vars triggers (foldExpr f body) pos)
  | exist vars triggers body pos =>
    f (exist vars triggers (foldExpr f body) pos)
  | letExpr var expr body pos =>
    f (letExpr var (foldExpr f expr) (foldExpr f body) pos)
  | funcApp name args formalArgs typ pos =>
    f (funcApp name (foldExprs f args) formalArgs typ pos)
  | domainFuncApp func args pos =>
    f (domainFuncApp func (foldExprs f args) pos)
  | inhaleExhale inhaleExpr exhaleExpr pos =>
    f (inhaleExhale (foldExpr f inhaleExpr) (foldExpr f exhaleExpr) pos)
  | downcast base enumPlace fld =>
    f (downcast (foldExpr f base) (foldExpr f enumPlace) fld)
  | snapApp expr pos => f (snapApp (foldExpr f expr) pos)

def foldExprs (f : Expr → Expr) : List Expr → List Expr
  | [] => []
  | expr :: rest => foldExpr f expr :: foldExprs f rest

end

/-- Replace all default positions. -/
def setDefaultPos (expr : Expr) (pos : Position) : Expr :=
  expr.foldExpr fun inner =>
    if inner.pos.isDefault then inner.setPos pos else inner

mutual

/-- A function that the equality does not see is not seen after a fold. -/
theorem eq_foldExpr {f : Expr → Expr} (hf : ∀ expr other : Expr, eq (f expr) other = eq expr other)
    (expr other : Expr) :
    eq (foldExpr f expr) other = eq expr other := by
  cases expr with
  | localVar | const => rw [foldExpr, hf]
  | variant base | field base | addrOf base | labelledOld _ base
  | fieldAccessPredicate base | predicateAccessPredicate _ base
  | unaryOp _ base | snapApp base =>
    rw [foldExpr, hf]
    cases other <;> simp only [eq, eq_foldExpr hf base]
  | magicWand left right | binOp _ left right | containerOp _ left right
  | letExpr _ left right | inhaleExhale left right | downcast left right =>
    rw [foldExpr, hf]
    cases other <;> simp only [eq, eq_foldExpr hf left, eq_foldExpr hf right]
  | cond guard thenExpr elseExpr =>
    rw [foldExpr, hf]
    cases other <;> simp only [eq, eq_foldExpr hf guard,
      eq_foldExpr hf thenExpr, eq_foldExpr hf elseExpr]
  | forAll _ _ body | exist _ _ body =>
    rw [foldExpr, hf]
    cases other <;> simp only [eq, eq_foldExpr hf body]
  | seq _ elems | funcApp _ elems | domainFuncApp _ elems =>
    rw [foldExpr, hf]
    cases other <;> simp only [eq, eqList_foldExprs hf elems]
  | unfolding _ args base =>
    rw [foldExpr, hf]
    cases other <;> simp only [eq, eq_foldExpr hf base, eqList_foldExprs hf args]

theorem eqList_foldExprs {f : Expr → Expr}
    (hf : ∀ expr other : Expr, eq (f expr) other = eq expr other) (exprs others : List Expr) :
    eqList (foldExprs f exprs) others = eqList exprs others := by
  cases exprs with
  | nil => rfl
  | cons expr rest =>
    cases others with
    | nil => rfl
    | cons other others =>
      rw [foldExprs, eqList, eqList, eq_foldExpr hf expr, eqList_foldExprs hf rest]

end

/-- Positions play no role in equality. -/
theorem beq_setDefaultPos (expr other : Expr) (pos : Position) :
    (expr.setDefaultPos pos == other) = (expr == other) := by
  refine eq_foldExpr ?_ expr other
  intro inner other
  split
  · cases inner <;> cases other <;> rfl
  · rfl

/-- The type of an expression; `none` stands for the expressions on which the
source panics. -/
def getType : Expr → Option Typ
  | localVar var _ => some var.typ
  | variant _ fld _ | field _ fld _ => some fld.typ
  | addrOf _ typ _ => some typ
  | letExpr var _ _ _ => some var.typ
  | labelledOld _ base _ | unfolding _ _ base _ _ _ | unaryOp _ base _ =>
    getType base
  | funcApp _ _ _ typ _ => some typ
  | domainFuncApp func _ _ => some func.returnType
  | const value _ =>
    match value with
    | .bool _ => some .bool
    | .int _ | .bigInt _ => some .int
    | .fnPtr => some (.typedRef "FnPtr")
  | binOp op left right _ =>
    match op with
    | .eqCmp | .neCmp | .gtCmp | .geCmp | .ltCmp | .leCmp | .and | .or
    | .implies => some .bool
    | .add | .sub | .mul | .div | .mod =>
      match getType left, getType right with
      | some typ, some typ' => if typ == typ' then some typ else none
      | _, _ => none
  | cond _ thenExpr elseExpr _ =>
    match getType thenExpr, getType elseExpr with
    | some typ, some typ' => if typ == typ' then some typ else none
    | _, _ => none
  | forAll _ _ _ _ | exist _ _ _ _ => some .bool
  | downcast base _ _ => getType base
  | snapApp expr _ => getType expr
  | seq typ _ _ => some typ
  | containerOp _ _ _ _ | magicWand _ _ _ _ | predicateAccessPredicate _ _ _ _
  | fieldAccessPredicate _ _ _ | inhaleExhale _ _ _ => none

/-- The predicate name of an expression of reference type. -/
def typedRefName (expr : Expr) : Option String :=
  match expr.getType with
  | some (.typedRef name) => some name
  | _ => none

def ofLocal (var : LocalVar) : Expr := localVar var Position.default

def mkField (base : Expr) (fld : Field) : Expr := field base fld Position.default

/-- The variant of an enum place; `none` stands for a place that is not of
reference type. -/
def mkVariant (base : Expr) (index : String) : Option Expr :=
  match base.getType.bind fun typ => typ.variant index with
  | some typ => some (variant base ⟨"enum_" ++ index, typ⟩ Position.default)
  | none => none

def ofBool (value : Bool) : Expr := const (.bool value) Position.default

def ofInt (value : Int) : Expr := const (.int value) Position.default

def mkNot (expr : Expr) : Expr := unaryOp .not expr Position.default

def mkBinOp (op : BinOpKind) (left right : Expr) : Expr := binOp op left right Position.default

def mkAnd (left right : Expr) : Expr := mkBinOp .and left right

def mkOr (left right : Expr) : Expr := mkBinOp .or left right

def implies (left right : Expr) : Expr := mkBinOp .implies left right

def eqCmp (left right : Expr) : Expr := mkBinOp .eqCmp left right

def leCmp (left right : Expr) : Expr := mkBinOp .leCmp left right

def ltCmp (left right : Expr) : Expr := mkBinOp .ltCmp left right

def accPermission (place : Expr) (perm : PermAmount) : Expr :=
  fieldAccessPredicate place perm Position.default

def mkPredicateAccessPredicate (name : String) (place : Expr) (perm : PermAmount) : Expr :=
  predicateAccessPredicate name place perm place.pos

/-- The conjunction of a sequence, nested to the right and ended by `true`. -/
def conjoin : List Expr → Expr
  | [] => ofBool true
  | conjunct :: rest => mkAnd conjunct (conjoin rest)

/-- The disjunction of a sequence, nested to the right and ended by `false`. -/
def disjoin : List Expr → Expr
  | [] => ofBool false
  | disjunct :: rest => mkOr disjunct (disjoin rest)

/-- The substitution of type parameters that a replacement carries: it is
learned when both places are local variables of reference type.  The outer
`none` stands for a panic. -/
def typaramSubsts : Expr → Expr → Option (Option Typaram.Substs)
  | localVar var _, localVar var' _ =>
    match var.typ, var'.typ with
    | .typedRef generic, .typedRef concrete => (Typaram.learn generic concrete).map some
    | _, _ => some none
  | _, _ => some none

/-- The type of a field above a replaced place. -/
def patchField (substs : Option Typaram.Substs) (subst : Bool) (fld : Field) : Field :=
  match substs, fld.typ with
  | some substs, .typedRef name =>
    if subst then ⟨fld.name, .typedRef (Typaram.apply substs name)⟩ else fld
  | _, _ => fld

/-- Does a quantifier bind the variable at the root of the target? -/
def bindsBase (target : Expr) (vars : List LocalVar) : Bool :=
  match target.getBase with
  | some base => vars.contains base
  | none => false

section PlaceReplacer

variable (substs : Option Typaram.Substs) (target replacement : Expr)

mutual

/-- The traversal of the place replacer.  The second component says whether
the node was replaced, or is a chain of fields above a replaced node. -/
def foldReplace : Expr → Expr × Bool
  | localVar var pos =>
    if localVar var pos == target then (replacement, true)
    else (localVar var pos, false)
  | variant base index pos =>
    if (variant base index pos).isPlace && variant base index pos == target
    then (replacement, true)
    else (variant (foldReplace base).1 index pos, false)
  | field base fld pos =>
    if (field base fld pos).isPlace && field base fld pos == target
    then (replacement, true)
    else
      (field (foldReplace base).1
        (patchField substs (foldReplace base).2 fld) pos, (foldReplace base).2)
  | addrOf base typ pos =>
    if (addrOf base typ pos).isPlace && addrOf base typ pos == target
    then (replacement, true)
    else (addrOf (foldReplace base).1 typ pos, false)
  | labelledOld label base pos =>
    if (labelledOld label base pos).isPlace && labelledOld label base pos == target
    then (replacement, true)
    else (labelledOld label (foldReplace base).1 pos, false)
  | unfolding name args base perm index pos =>
    if (unfolding name args base perm index pos).isPlace &&
      unfolding name args base perm index pos == target
    then (replacement, true)
    else (unfolding name (foldReplaceList args) (foldReplace base).1 perm index pos, false)
  | const value pos => (const value pos, false)
  | magicWand lhs rhs borrow pos =>
    (magicWand (foldReplace lhs).1 (foldReplace rhs).1 borrow pos, false)
  | predicateAccessPredicate name arg perm pos =>
    (predicateAccessPredicate name (foldReplace arg).1 perm pos, false)
  | fieldAccessPredicate base perm pos =>
    (fieldAccessPredicate (foldReplace base).1 perm pos, false)
  | unaryOp op arg pos => (unaryOp op (foldReplace arg).1 pos, false)
  | binOp op left right pos => (binOp op (foldReplace left).1 (foldReplace right).1 pos, false)
  | containerOp op left right pos =>
    (containerOp op (foldReplace left).1 (foldReplace right).1 pos, false)
  | seq typ elems pos => (seq typ (foldReplaceList elems) pos, false)
  | cond guard thenExpr elseExpr pos =>
    (cond (foldReplace guard).1 (foldReplace thenExpr).1 (foldReplace elseExpr).1 pos, false)
  | forAll vars triggers body pos =>
    if bindsBase target vars then (forAll vars triggers body pos, false)
    else (forAll vars (foldReplaceTriggers triggers) (foldReplace body).1 pos, false)
  | exist vars triggers body pos =>
    if bindsBase target vars then (exist vars triggers body pos, false)
    else (exist vars (foldReplaceTriggers triggers) (foldReplace body).1 pos, false)
  | letExpr var expr body pos => (letExpr var (foldReplace expr).1 (foldReplace body).1 pos, false)
  | funcApp name args formalArgs typ pos =>
    (funcApp name (foldReplaceList args) formalArgs typ pos, false)
  | domainFuncApp func args pos => (domainFuncApp func (foldReplaceList args) pos, false)
  | inhaleExhale inhaleExpr exhaleExpr pos =>
    (inhaleExhale (foldReplace inhaleExpr).1 (foldReplace exhaleExpr).1 pos, false)
  | downcast base enumPlace fld =>
    (downcast (foldReplace base).1 (foldReplace enumPlace).1 fld, false)
  | snapApp expr pos => (snapApp (foldReplace expr).1 pos, false)

def foldReplaceList : List Expr → List Expr
  | [] => []
  | expr :: rest => (foldReplace expr).1 :: foldReplaceList rest

def foldReplaceTriggers : List (List Expr) → List (List Expr)
  | [] => []
  | trigger :: rest => foldReplaceList trigger :: foldReplaceTriggers rest

end

end PlaceReplacer

/-- Replace a place by another expression; `none` stands for a panic while
the type parameters are matched.  The source defines it for targets that are
places. -/
def replacePlace (expr target replacement : Expr) : Option Expr :=
  (typaramSubsts target replacement).map fun substs =>
    (foldReplace substs target replacement expr).1

end Prusti.Vir.Expr

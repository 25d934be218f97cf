/-
The meaning of pure expressions.  Evaluation is partial: a field may not be
accessible, a function may not be applicable, and the logical connectives look
at their second operand only when they have to.
-/
import Prusti.Vir.Children
import Prusti.Vir.Interp

namespace Prusti.Vir

/-- The values of pure expressions; `other` are references, function pointers,
elements of domains and snapshots. -/
inductive Val (U : Type) where
  | int (value : Int)
  | bool (value : Bool)
  | seq (elems : List (Val U))
  | other (value : U)

/-- An interpretation of what the expressions refer to. -/
structure Model where
  U : Type
  /-- The heap with its permissions. -/
  State : Type
  carrier : Typ → Set U
  fnPtr : U
  field : State → Field → Val U → Option (Val U)
  variant : State → Field → Val U → Option (Val U)
  addrOf : State → Typ → Val U → Option (Val U)
  snap : State → Val U → Option (Val U)
  /-- The state at a label. -/
  old : String → State → Option State
  /-- The state in which a predicate instance is unfolded. -/
  unfolding : String → PermAmount → Option EnumVariantIndex → List (Val U) → State → Option State
  func : String → List LocalVar → Typ → State → List (Val U) → Option (Val U)
  domainFunc : DomainFunc → List (Val U) → Option (Val U)

namespace Model

variable (M : Model)

/-- The values of a type. -/
def HasSort : Typ → Val M.U → Prop
  | .int, value => ∃ n, value = .int n
  | .bool, value => ∃ b, value = .bool b
  | .seq typ, value => ∃ elems, value = .seq elems ∧ ∀ elem ∈ elems, HasSort typ elem
  | typ, value => ∃ u ∈ M.carrier typ, value = .other u

/-- The values of the variables. -/
abbrev Env := String → Option (Val M.U)

variable {M} in
/-- The values of the variables inside of a binder. -/
def Env.bind (env : M.Env) : List LocalVar → List (Val M.U) → M.Env
  | var :: vars, value :: values => fun name =>
    if name = var.name then some value else env.bind vars values name
  | _, _ => env

/-- What an expression evaluates to, if to anything. -/
abbrev Den := M.State → M.Env → Option (Val M.U)

variable {M} in
/-- The values of a list of arguments. -/
def evalAll : List M.Den → M.State → M.Env → Option (List (Val M.U))
  | [], _, _ => some []
  | part :: rest, state, env =>
    (part state env).bind fun value => (evalAll rest state env).map (value :: ·)

open Classical in
/-- Only values of the declared type count. -/
noncomputable def typed (typ : Typ) (result : Option (Val M.U)) : Option (Val M.U) :=
  result.bind fun value => if M.HasSort typ value then some value else none

open Classical in
/-- The operators that need both operands. -/
noncomputable def strictOp (kind : BinOpKind) (left right : Val M.U) : Option (Val M.U) :=
  match kind, left, right with
  | .eqCmp, left, right => some (.bool (decide (left = right)))
  | .neCmp, left, right => some (.bool (decide (left ≠ right)))
  | .gtCmp, .int m, .int n => some (.bool (decide (n < m)))
  | .geCmp, .int m, .int n => some (.bool (decide (n ≤ m)))
  | .ltCmp, .int m, .int n => some (.bool (decide (m < n)))
  | .leCmp, .int m, .int n => some (.bool (decide (m ≤ n)))
  | .add, .int m, .int n => some (.int (m + n))
  | .sub, .int m, .int n => some (.int (m - n))
  | .mul, .int m, .int n => some (.int (m * n))
  | .div, .int m, .int n => if n = 0 then none else some (.int (m / n))
  | .mod, .int m, .int n => if n = 0 then none else some (.int (m % n))
  | _, _, _ => none

/-- Evaluation to a Boolean. -/
def asBool (result : Option (Val M.U)) : Option Bool :=
  match result with
  | some (.bool b) => some b
  | _ => none

/-- The connectives do not look at their second operand when the first one
decides. -/
def shortOp (kind : BinOpKind) (left right : Option Bool) : Option Bool :=
  match kind, left with
  | .and, some false => some false
  | .and, some true => right
  | .or, some true => some true
  | .or, some false => right
  | .implies, some false => some true
  | .implies, some true => right
  | _, _ => none

def containerOp (kind : ContainerOpKind) (left right : Val M.U) : Option (Val M.U) :=
  match kind, left, right with
  | .seqIndex, .seq elems, .int index =>
    if 0 ≤ index then elems[index.toNat]? else none
  | .seqConcat, .seq elems, .seq elems' => some (.seq (elems ++ elems'))
  | .seqLen, .seq elems, _ => some (.int elems.length)
  | _, _, _ => none

open Classical in
/-- A quantified formula has a value when all its instances have. -/
noncomputable def quantify (holds : (List (Val M.U) → Bool) → Prop)
    (domain : Set (List (Val M.U))) (body : List (Val M.U) → Option Bool) :
    Option (Val M.U) :=
  if ∀ values ∈ domain, (body values).isSome = true then
    some (.bool (decide (holds fun values => (body values).getD false)))
  else none

/-- The values a quantifier ranges over. -/
def Tuples (vars : List LocalVar) : Set (List (Val M.U)) :=
  { values | List.Forall₂ (fun var value => M.HasSort var.typ value) vars values }

/-- The value of a node, by the values of its sub-expressions.  Assertions have
no value. -/
noncomputable def evalNode (node : Expr) (parts : List M.Den) : M.Den :=
  fun state env =>
    match node, parts with
    | .localVar var _, _ => M.typed var.typ (env var.name)
    | .const (.bool b) _, _ => some (.bool b)
    | .const (.int n) _, _ => some (.int n)
    | .const (.bigInt digits) _, _ => some (.int (intOfDigits digits))
    | .const .fnPtr _, _ => M.typed (.typedRef "FnPtr") (some (.other M.fnPtr))
    | .variant _ fld _, [base] =>
      M.typed fld.typ ((base state env).bind (M.variant state fld))
    | .field _ fld _, [base] =>
      M.typed fld.typ ((base state env).bind (M.field state fld))
    | .addrOf _ typ _, [base] =>
      M.typed typ ((base state env).bind (M.addrOf state typ))
    | .snapApp _ _, [expr] => (expr state env).bind (M.snap state)
    | .labelledOld label _ _, [base] =>
      (M.old label state).bind fun oldState => base oldState env
    | .unaryOp .not _ _, [arg] =>
      (M.asBool (arg state env)).map fun b => .bool (!b)
    | .unaryOp .minus _ _, [arg] =>
      match arg state env with
      | some (.int n) => some (.int (-n))
      | _ => none
    | .binOp kind _ _ _, [left, right] =>
      match kind with
      | .and | .or | .implies =>
        (shortOp kind (M.asBool (left state env)) (M.asBool (right state env))).map .bool
      | _ => (left state env).bind fun leftValue =>
        (right state env).bind fun rightValue =>
          M.strictOp kind leftValue rightValue
    | .containerOp kind _ _ _, [left, right] =>
      (left state env).bind fun leftValue =>
        (right state env).bind fun rightValue =>
          M.containerOp kind leftValue rightValue
    | .seq typ _ _, elems =>
      M.typed typ ((evalAll elems state env).map .seq)
    | .unfolding name _ _ perm index _, parts =>
      (evalAll parts.dropLast state env).bind fun args =>
        (M.unfolding name perm index args state).bind fun inner =>
          parts.getLast?.bind fun base => base inner env
    | .cond _ _ _ _, [guard, thenExpr, elseExpr] =>
      (M.asBool (guard state env)).bind fun b =>
        if b then thenExpr state env else elseExpr state env
    | .forAll vars _ _ _, [body] =>
      M.quantify (fun holds => ∀ values ∈ M.Tuples vars, holds values = true) (M.Tuples vars)
        (fun values => M.asBool (body state (env.bind vars values)))
    | .exist vars _ _ _, [body] =>
      M.quantify (fun holds => ∃ values ∈ M.Tuples vars, holds values = true) (M.Tuples vars)
        (fun values => M.asBool (body state (env.bind vars values)))
    | .letExpr var _ _ _, [expr, body] =>
      (expr state env).bind fun value => body state (env.bind [var] [value])
    | .funcApp name _ formalArgs typ _, args =>
      M.typed typ ((evalAll args state env).bind (M.func name formalArgs typ state))
    | .domainFuncApp func _ _, args =>
      M.typed func.returnType ((evalAll args state env).bind (M.domainFunc func))
    | .downcast _ _ _, [base, _] => base state env
    | _, _ => none

/-- The value of an expression. -/
noncomputable def eval (expr : Expr) : M.Den := expr.para fun node parts _ => M.evalNode node parts

theorem eval_eq (expr : Expr) : M.eval expr = M.evalNode expr (expr.children.map M.eval) :=
  Expr.para_eq _ expr

end Model

end Prusti.Vir

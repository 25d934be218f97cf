/-
Domains and pure functions, and what their expressions mean: the values of the
expressions in a finite heap, for an interpretation of the domain functions.
Integers are all the integers and sequences are finite.
-/
import Prusti.Vir.Transform

namespace Prusti.Vir

def DomainFunc.apply (func : DomainFunc) (args : List Expr) : Expr :=
  .domainFuncApp func args Position.default

structure DomainAxiom where
  name : String
  expr : Expr
  domainName : String
deriving Repr

structure Domain where
  name : String
  functions : List DomainFunc
  axioms : List DomainAxiom
deriving Repr

/-- A pure function. -/
structure Function where
  name : String
  formalArgs : List LocalVar
  returnType : Typ
  pres : List Expr
  posts : List Expr
  body : Option Expr
deriving Repr

/-- A finite instance of a type in the heap, at a location.  A record is looked
into by its fields, a sum by its discriminant and by the fields of its
variant. -/
inductive HeapValue where
  | int (loc : Nat) (value : Int)
  | bool (loc : Nat) (value : Bool)
  | record (loc : Nat) (fields : List (String × HeapValue))
  | sum (loc : Nat) (discriminant : Int) (variant : String) (fields : List (String × HeapValue))
  | list (loc : Nat) (elems : List HeapValue)

/-- The values of expressions, over the elements `E` of the domains. -/
inductive Value (E : Type) where
  | int (value : Int)
  | bool (value : Bool)
  | elem (value : E)
  | seq (elems : List (Value E))
  | ref (value : HeapValue)

/-- The number that a string of decimal digits stands for. -/
def intOfDigits (digits : String) : Int :=
  match digits.toList with
  | '-' :: rest => -(Nat.ofDigitChars 10 rest 0 : Int)
  | chars => (Nat.ofDigitChars 10 chars 0 : Int)

theorem intOfDigits_toString (value : Int) : intOfDigits (toString value) = value := by
  cases value with
  | ofNat value =>
    have hlist : (toString (Int.ofNat value)).toList = Nat.toDigits 10 value := Nat.toList_repr
    unfold intOfDigits
    rw [hlist]
    split
    · next rest heq =>
        have hdigit := Nat.isDigit_of_mem_toDigits (b := 10) (c := '-')
          (n := value) (by decide) (by decide) (by simp [heq])
        exact absurd hdigit (by decide)
    · rw [Nat.ofDigitChars_ten_toDigits]
      rfl
  | negSucc value =>
    have hlist : (toString (Int.negSucc value)).toList = '-' :: Nat.toDigits 10 (value + 1) := by
      change ("-" ++ Nat.repr (value + 1)).toList = _
      rw [String.toList_append, Nat.toList_repr]
      rfl
    unfold intOfDigits
    rw [hlist]
    simp only [Nat.ofDigitChars_ten_toDigits]
    rfl

/-- An interpretation of the domains: the elements of the sorts, by the names
of the domains, and the functions.  What an index outside of a sequence yields
depends on the sort of the elements, the sequence and the index. -/
structure Interp where
  E : Type
  sort : String → Set E
  func : DomainFunc → List (Value E) → Value E
  outOfRange : Typ → List (Value E) → Int → Value E

namespace Interp

variable (I : Interp)

/-- The values of a type.  References are no values of the domains. -/
def HasSort : Typ → Value I.E → Prop
  | .int, value => ∃ n, value = .int n
  | .bool, value => ∃ b, value = .bool b
  | .seq typ, value => ∃ elems, value = .seq elems ∧ ∀ elem ∈ elems, HasSort typ elem
  | .domain name, value => ∃ e ∈ I.sort name, value = .elem e
  | .snapshot name, value => ∃ e ∈ I.sort ("Snap$" ++ name), value = .elem e
  | .typedRef _, _ => False

/-- Values for a list of variables. -/
def HasSorts (vars : List LocalVar) (values : List (Value I.E)) : Prop :=
  List.Forall₂ (fun var value => I.HasSort var.typ value) vars values

/-- The values of the variables in scope, by name, the innermost first. -/
abbrev Env := List (String × Value I.E)

variable {I} in
def Env.bind (env : I.Env) (vars : List LocalVar) (values : List (Value I.E)) : I.Env :=
  (vars.zip values).map (fun item => (item.1.name, item.2)) ++ env

/-- What the pure functions return, for their names and the types of their
arguments. -/
abbrev Calls := String → List Typ → List (Value I.E) → Option (Value I.E)

/-- The value of a field of an instance. -/
def fieldValue (value : HeapValue) (name : String) : Option (Value I.E) :=
  match value with
  | .int _ n => if name = "val_int" then some (.int n) else none
  | .bool _ b => if name = "val_bool" then some (.bool b) else none
  | .record _ fields => (fields.lookup name).map .ref
  | .sum _ discriminant _ _ =>
    if name = "discriminant" then some (.int discriminant) else none
  | .list _ _ => none

/-- The part of an instance that belongs to a variant. -/
def variantValue (value : HeapValue) (name : String) : Option (Value I.E) :=
  match value with
  | .sum loc _ variant fields =>
    if name = "enum_" ++ variant then some (.ref (.record loc fields)) else none
  | _ => none

open Classical in
/-- Binary operators. -/
noncomputable def binOpValue (kind : BinOpKind) (left right : Value I.E) : Option (Value I.E) :=
  match kind, left, right with
  | .eqCmp, left, right => some (.bool (decide (left = right)))
  | .neCmp, left, right => some (.bool (decide (left ≠ right)))
  | .gtCmp, .int m, .int n => some (.bool (decide (n < m)))
  | .geCmp, .int m, .int n => some (.bool (decide (n ≤ m)))
  | .ltCmp, .int m, .int n => some (.bool (decide (m < n)))
  | .leCmp, .int m, .int n => some (.bool (decide (m ≤ n)))
  | .add, .int m, .int n => some (.int (m + n))
  | .sub, .int m, .int n => some (.int (m - n))
  | .mul, .int m, .int n => some (.int (m * n))
  | .and, .bool b, .bool c => some (.bool (b && c))
  | .or, .bool b, .bool c => some (.bool (b || c))
  | .implies, .bool b, .bool c => some (.bool (!b || c))
  | _, _, _ => none

section

variable {I}

open Classical in
theorem binOpValue_eqCmp (left right : Value I.E) :
    I.binOpValue .eqCmp left right = some (.bool (decide (left = right))) := rfl

open Classical in
theorem binOpValue_leCmp (m n : Int) :
    I.binOpValue .leCmp (.int m) (.int n) = some (.bool (decide (m ≤ n))) := rfl

open Classical in
theorem binOpValue_geCmp (m n : Int) :
    I.binOpValue .geCmp (.int m) (.int n) = some (.bool (decide (n ≤ m))) := rfl

theorem binOpValue_and (b c : Bool) :
    I.binOpValue .and (.bool b) (.bool c) = some (.bool (b && c)) := rfl

theorem binOpValue_or (b c : Bool) :
    I.binOpValue .or (.bool b) (.bool c) = some (.bool (b || c)) := rfl

theorem binOpValue_implies (b c : Bool) :
    I.binOpValue .implies (.bool b) (.bool c) = some (.bool (!b || c)) := rfl

end

/-- Operators on sequences.  The length ignores its second operand. -/
def containerOpValue (elemTyp : Typ) (kind : ContainerOpKind)
    (left right : Value I.E) : Option (Value I.E) :=
  match kind, left, right with
  | .seqIndex, .seq elems, .int index =>
    if 0 ≤ index then
      match elems[index.toNat]? with
      | some elem => some elem
      | none => some (I.outOfRange elemTyp elems index)
    else some (I.outOfRange elemTyp elems index)
  | .seqConcat, .seq elems, .seq elems' => some (.seq (elems ++ elems'))
  | .seqLen, .seq elems, _ => some (.int elems.length)
  | _, _, _ => none

/-- The type of the elements of a sequence expression. -/
def elemTypOf (expr : Expr) : Typ :=
  match expr.getType with
  | some (.seq typ) => typ
  | _ => .int

open Classical in
mutual

/-- The value of an expression. -/
noncomputable def value (calls : I.Calls) (env : I.Env) : Expr → Option (Value I.E)
  | .localVar var _ => env.lookup var.name
  | .field base fld _ =>
    match value calls env base with
    | some (.ref heapValue) => I.fieldValue heapValue fld.name
    | _ => none
  | .variant base fld _ =>
    match value calls env base with
    | some (.ref heapValue) => I.variantValue heapValue fld.name
    | _ => none
  | .const (.int n) _ => some (.int n)
  | .const (.bigInt digits) _ => some (.int (intOfDigits digits))
  | .const (.bool b) _ => some (.bool b)
  | .unaryOp .not arg _ =>
    match value calls env arg with
    | some (.bool b) => some (.bool (!b))
    | _ => none
  | .binOp kind left right _ =>
    match value calls env left, value calls env right with
    | some leftValue, some rightValue =>
      I.binOpValue kind leftValue rightValue
    | _, _ => none
  | .containerOp kind left right _ =>
    match value calls env left, value calls env right with
    | some leftValue, some rightValue =>
      I.containerOpValue (elemTypOf left) kind leftValue rightValue
    | _, _ => none
  | .seq _ elems _ => (values calls env elems).map .seq
  | .unfolding _ _ base _ _ _ => value calls env base
  | .cond guard thenExpr elseExpr _ =>
    match value calls env guard with
    | some (.bool true) => value calls env thenExpr
    | some (.bool false) => value calls env elseExpr
    | _ => none
  | .forAll vars _ body _ =>
    some (.bool (decide (∀ vals, I.HasSorts vars vals →
      value calls (env.bind vars vals) body = some (.bool true))))
  | .funcApp name args formalArgs _ _ =>
    match values calls env args with
    | some vals => calls name (formalArgs.map (·.typ)) vals
    | none => none
  | .domainFuncApp func args _ => (values calls env args).map (I.func func)
  | _ => none

noncomputable def values (calls : I.Calls) (env : I.Env) : List Expr → Option (List (Value I.E))
  | [] => some []
  | expr :: rest =>
    match value calls env expr, values calls env rest with
    | some first, some others => some (first :: others)
    | _, _ => none

end

/-- A formula that calls no function holds. -/
def Holds (env : I.Env) (expr : Expr) : Prop :=
  I.value (fun _ _ _ => none) env expr = some (.bool true)

/-- The functions of a domain keep the sorts and its axioms hold. -/
structure Models (domain : Domain) : Prop where
  sorted : ∀ func ∈ domain.functions, ∀ args, I.HasSorts func.formalArgs args →
    I.HasSort func.returnType (I.func func args)
  holds : ∀ ax ∈ domain.axioms, I.Holds [] ax.expr

/-- No sort is empty, and every index yields a value of the sort of the
elements. -/
structure NonemptySorts : Prop where
  nonempty : ∀ name, (I.sort name).Nonempty
  outOfRange_sorted : ∀ typ elems index, (∃ value, I.HasSort typ value) →
    I.HasSort typ (I.outOfRange typ elems index)

end Interp

end Prusti.Vir

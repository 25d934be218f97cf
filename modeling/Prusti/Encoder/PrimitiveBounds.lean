/-
The predicates of the primitive types: the fields that hold their values and the
bounds of the values.
-/
import Mathlib.Data.Int.ConditionallyCompleteOrder
import Prusti.Vir.Predicate
import Prusti.Vir.Typing

namespace Prusti.Encoder

open Prusti.Vir

/-- The settings of the verifier on which the bounds of integers depend. -/
structure BoundSettings where
  checkOverflows : Bool
  encodeUnsignedNumConstraint : Bool
  /-- The width of `usize` and `isize`. -/
  pointerWidth : Nat
deriving Repr, DecidableEq

inductive IntTy where
  | i8 | i16 | i32 | i64 | i128 | isize
deriving Repr, DecidableEq

inductive UintTy where
  | u8 | u16 | u32 | u64 | u128 | usize
deriving Repr, DecidableEq

inductive PrimitiveTy where
  | bool
  | char
  | int (ty : IntTy)
  | uint (ty : UintTy)
deriving Repr, DecidableEq

/-- A constant that does not fit into an `i64` is kept as its digits. -/
def bigIntConst (value : Int) : Expr := .const (.bigInt (toString value)) Position.default

namespace IntTy

def width (settings : BoundSettings) : IntTy → Nat
  | i8 => 8
  | i16 => 16
  | i32 => 32
  | i64 => 64
  | i128 => 128
  | isize => settings.pointerWidth

def constant : IntTy → Int → Expr
  | i8, value | i16, value | i32, value | i64, value => Expr.ofInt value
  | i128, value | isize, value => bigIntConst value

def name : IntTy → String
  | i8 => "i8"
  | i16 => "i16"
  | i32 => "i32"
  | i64 => "i64"
  | i128 => "i128"
  | isize => "isize"

end IntTy

namespace UintTy

def width (settings : BoundSettings) : UintTy → Nat
  | u8 => 8
  | u16 => 16
  | u32 => 32
  | u64 => 64
  | u128 => 128
  | usize => settings.pointerWidth

def constant : UintTy → Int → Expr
  | u8, value | u16, value | u32, value => Expr.ofInt value
  | u64, value | u128, value | usize, value => bigIntConst value

def name : UintTy → String
  | u8 => "u8"
  | u16 => "u16"
  | u32 => "u32"
  | u64 => "u64"
  | u128 => "u128"
  | usize => "usize"

end UintTy

namespace PrimitiveTy

/-- The name of the predicate of the type. -/
def encodePredicateUse : PrimitiveTy → String
  | bool => "bool"
  | char => "char"
  | int ty => ty.name
  | uint ty => ty.name

def encodeValueField : PrimitiveTy → Field
  | bool => ⟨"val_bool", .bool⟩
  | char | int _ | uint _ => ⟨"val_int", .int⟩

def getIntegerBounds (settings : BoundSettings) : PrimitiveTy → Option (Expr × Expr)
  | bool => none
  | char => some (Expr.ofInt 0, bigIntConst 0x10FFFF)
  | int ty =>
    let half : Int := 2 ^ (ty.width settings - 1)
    some (ty.constant (-half), ty.constant (half - 1))
  | uint ty => some (Expr.ofInt 0, ty.constant (2 ^ ty.width settings - 1))

def isUnsigned : PrimitiveTy → Bool
  | uint _ => true
  | _ => false

/-- The bounds that the predicate of the type states, depending on the settings. -/
def predicateBounds (settings : BoundSettings) (ty : PrimitiveTy) : Option (Expr × Expr) :=
  if settings.checkOverflows then ty.getIntegerBounds settings else none

/-- The value in the predicate of a primitive type. -/
def valueLoc (ty : PrimitiveTy) : Expr :=
  (Expr.ofLocal ⟨"self", .typedRef ty.encodePredicateUse⟩).mkField ty.encodeValueField

/-- What the predicate of a primitive type says about the value. -/
def valueConjuncts (settings : BoundSettings) (ty : PrimitiveTy) : List Expr :=
  Predicate.valueBounds ty.valueLoc (ty.predicateBounds settings)
    (ty.isUnsigned && settings.encodeUnsignedNumConstraint)

/-- The integers that the predicate of a type admits. -/
def admitted (settings : BoundSettings) : PrimitiveTy → Set Int
  | bool => Set.univ
  | char => if settings.checkOverflows then Set.Icc 0 0x10FFFF else Set.univ
  | int ty =>
    if settings.checkOverflows then
      Set.Icc (-2 ^ (ty.width settings - 1)) (2 ^ (ty.width settings - 1) - 1)
    else Set.univ
  | uint ty =>
    if settings.checkOverflows then Set.Icc 0 (2 ^ ty.width settings - 1)
    else if settings.encodeUnsignedNumConstraint then Set.Ici 0
    else Set.univ

section Eval

variable {M : Model} {state : M.State} {env : M.Env} {place : Expr} {n : Int}

theorem eval_bigIntConst (value : Int) :
    M.eval (bigIntConst value) state env = some (.int value) := by
  rw [Model.eval_eq]
  exact congrArg (fun n => some (Val.int n)) (intOfDigits_toString value)

theorem eval_ofInt (value : Int) : M.eval (Expr.ofInt value) state env = some (.int value) := by
  rw [Model.eval_eq]
  rfl

theorem eval_intConstant (ty : IntTy) (value : Int) :
    M.eval (ty.constant value) state env = some (.int value) := by
  cases ty <;> first
    | exact eval_ofInt value
    | exact eval_bigIntConst value

theorem eval_uintConstant (ty : UintTy) (value : Int) :
    M.eval (ty.constant value) state env = some (.int value) := by
  cases ty <;> first
    | exact eval_ofInt value
    | exact eval_bigIntConst value

/-- A comparison of integers. -/
theorem eval_leCmp {left right : Expr} {m : Int} (hleft : M.eval left state env = some (.int m))
    (hright : M.eval right state env = some (.int n)) :
    M.eval (Expr.leCmp left right) state env = some (.bool (decide (m ≤ n))) := by
  rw [Model.eval_eq]
  change ((M.eval left state env).bind fun leftValue =>
    (M.eval right state env).bind fun rightValue =>
      M.strictOp .leCmp leftValue rightValue) = _
  rw [hleft, hright]
  rfl

theorem eval_geCmp {left right : Expr} {m : Int} (hleft : M.eval left state env = some (.int m))
    (hright : M.eval right state env = some (.int n)) :
    M.eval (Expr.mkBinOp .geCmp left right) state env = some (.bool (decide (n ≤ m))) := by
  rw [Model.eval_eq]
  change ((M.eval left state env).bind fun leftValue =>
    (M.eval right state env).bind fun rightValue =>
      M.strictOp .geCmp leftValue rightValue) = _
  rw [hleft, hright]
  rfl

/-- A conjunction of two formulas that have values. -/
theorem eval_mkAnd {left right : Expr} {b c : Bool} (hleft : M.eval left state env = some (.bool b))
    (hright : M.eval right state env = some (.bool c)) :
    M.eval (Expr.mkAnd left right) state env = some (.bool (b && c)) := by
  rw [Model.eval_eq]
  change (Model.shortOp .and (M.asBool (M.eval left state env))
    (M.asBool (M.eval right state env))).map Val.bool = _
  rw [hleft, hright]
  cases b <;> rfl

/-- Two bounds. -/
theorem valueBounds_hold_iff {lower upper : Expr} {l u : Int} (isUnsigned : Bool)
    (hlower : M.eval lower state env = some (.int l))
    (hupper : M.eval upper state env = some (.int u))
    (hvalue : M.eval place state env = some (.int n)) :
    (∀ conjunct ∈ Predicate.valueBounds place (some (lower, upper)) isUnsigned,
      M.eval conjunct state env = some (.bool true)) ↔ n ∈ Set.Icc l u := by
  simp [Predicate.valueBounds, eval_leCmp hlower hvalue, eval_leCmp hvalue hupper, Set.mem_Icc]

/-- No bounds but perhaps that the value is not negative. -/
theorem signBound_holds_iff (isUnsigned : Bool) (hvalue : M.eval place state env = some (.int n)) :
    (∀ conjunct ∈ Predicate.valueBounds place none isUnsigned,
      M.eval conjunct state env = some (.bool true)) ↔ (isUnsigned = true → 0 ≤ n) := by
  cases isUnsigned with
  | false => simp [Predicate.valueBounds]
  | true => simp [Predicate.valueBounds, eval_leCmp (eval_ofInt 0) hvalue]

/-- The bounds of a predicate hold of the admitted values. -/
theorem valueConjuncts_hold_iff (settings : BoundSettings) (ty : PrimitiveTy)
    (hvalue : M.eval ty.valueLoc state env = some (.int n)) :
    (∀ conjunct ∈ ty.valueConjuncts settings,
      M.eval conjunct state env = some (.bool true)) ↔ n ∈ ty.admitted settings := by
  unfold valueConjuncts predicateBounds
  cases ty with
  | bool =>
    have hbounds : (if settings.checkOverflows = true then
        getIntegerBounds settings bool else none) = none := by
      split <;> rfl
    rw [hbounds, signBound_holds_iff _ hvalue]
    simp [isUnsigned, admitted]
  | char =>
    by_cases hcheck : settings.checkOverflows = true
    · simp only [hcheck, if_true, admitted]
      exact valueBounds_hold_iff _ (eval_ofInt 0) (eval_bigIntConst _) hvalue
    · simp only [hcheck, admitted]
      rw [if_neg Bool.false_ne_true, signBound_holds_iff _ hvalue]
      simp [isUnsigned]
  | int ty =>
    by_cases hcheck : settings.checkOverflows = true
    · simp only [hcheck, if_true, admitted]
      exact valueBounds_hold_iff _ (eval_intConstant ty _) (eval_intConstant ty _) hvalue
    · simp only [hcheck, admitted]
      rw [if_neg Bool.false_ne_true, signBound_holds_iff _ hvalue]
      simp [isUnsigned]
  | uint ty =>
    by_cases hcheck : settings.checkOverflows = true
    · simp only [hcheck, if_true, admitted]
      exact valueBounds_hold_iff _ (eval_ofInt 0) (eval_uintConstant ty _) hvalue
    · simp only [hcheck, admitted]
      rw [if_neg Bool.false_ne_true, signBound_holds_iff _ hvalue]
      simp only [isUnsigned, Bool.true_and, if_neg Bool.false_ne_true]
      by_cases hunsigned : settings.encodeUnsignedNumConstraint = true
      · simp [hunsigned, Set.mem_Ici]
      · simp [hunsigned]

end Eval

end PrimitiveTy

end Prusti.Encoder

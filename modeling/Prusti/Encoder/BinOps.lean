/-
The encoding of the binary operations of MIR and of their overflow checks.
-/
import Prusti.Encoder.PrimitiveBounds

namespace Prusti.Vir.Expr

def geCmp (left right : Expr) : Expr := mkBinOp .geCmp left right

def gtCmp (left right : Expr) : Expr := mkBinOp .gtCmp left right

def neCmp (left right : Expr) : Expr := mkNot (eqCmp left right)

def xor (left right : Expr) : Expr := mkNot (eqCmp left right)

def minus (expr : Expr) : Expr := unaryOp .minus expr Position.default

def modulo (left right : Expr) : Expr := mkBinOp .mod left right

def ite (guard left right : Expr) : Expr := cond guard left right Position.default

/-- Encode the Rust remainder.  This is *not* the Viper modulo. -/
def rem (left right : Expr) : Expr :=
  let absRight := ite (geCmp right (ofInt 0)) right (minus right)
  ite (mkOr (geCmp left (ofInt 0)) (eqCmp (modulo left right) (ofInt 0)))
    -- positive value or left % right == 0
    (modulo left right)
    -- negative value
    (mkBinOp .sub (modulo left right) absRight)

end Prusti.Vir.Expr

namespace Prusti.Encoder

open Prusti.Vir

/-- The binary operations of MIR. -/
inductive BinOp where
  | add | sub | mul | div | rem
  | bitXor | bitAnd | bitOr
  | shl | shr
  | eq | lt | le | ne | ge | gt
  | offset
deriving Repr, DecidableEq

namespace BinOp

def name : BinOp → String
  | add => "Add"
  | sub => "Sub"
  | mul => "Mul"
  | div => "Div"
  | rem => "Rem"
  | bitXor => "BitXor"
  | bitAnd => "BitAnd"
  | bitOr => "BitOr"
  | shl => "Shl"
  | shr => "Shr"
  | eq => "Eq"
  | lt => "Lt"
  | le => "Le"
  | ne => "Ne"
  | ge => "Ge"
  | gt => "Gt"
  | offset => "Offset"

/-- The operations that can overflow. -/
def isCheckable : BinOp → Bool
  | add | sub | mul | shl | shr => true
  | _ => false

end BinOp

/-- The type of the operands; `other` is a type that is not primitive, by its name. -/
inductive OperandTy where
  | primitive (ty : PrimitiveTy)
  | other (name : String)
deriving Repr, DecidableEq

def OperandTy.name : OperandTy → String
  | primitive ty => ty.encodePredicateUse
  | other name => name

inductive EncodingError where
  | unsupported (message : String)
  /-- An `unreachable!` of the source. -/
  | unreachable (message : String)
deriving Repr, DecidableEq

def encodeBinOpExpr (op : BinOp) (left right : Expr) (ty : OperandTy) : Except EncodingError Expr :=
  let isBool := ty = .primitive .bool
  match op with
  | .eq => .ok (Expr.eqCmp left right)
  | .ne => .ok (Expr.neCmp left right)
  | .gt => .ok (Expr.gtCmp left right)
  | .ge => .ok (Expr.geCmp left right)
  | .lt => .ok (Expr.ltCmp left right)
  | .le => .ok (Expr.leCmp left right)
  | .add => .ok (Expr.mkBinOp .add left right)
  | .sub => .ok (Expr.mkBinOp .sub left right)
  | .rem => .ok (Expr.rem left right)
  | .div => .ok (Expr.mkBinOp .div left right)
  | .mul => .ok (Expr.mkBinOp .mul left right)
  | .bitAnd =>
    if isBool then .ok (Expr.mkAnd left right)
    else .error (.unsupported "bitwise operations on non-boolean types are not supported")
  | .bitOr =>
    if isBool then .ok (Expr.mkOr left right)
    else .error (.unsupported "bitwise operations on non-boolean types are not supported")
  | .bitXor =>
    if isBool then .ok (Expr.xor left right)
    else .error (.unsupported "bitwise operations on non-boolean types are not supported")
  | .shl | .shr | .offset =>
    .error (.unsupported s!"operation '{op.name}' is not supported")

namespace IntTy

def minValue (settings : BoundSettings) (ty : IntTy) : Int := -2 ^ (ty.width settings - 1)

def maxValue (settings : BoundSettings) (ty : IntTy) : Int := 2 ^ (ty.width settings - 1) - 1

/-- `std::…::MIN` as a constant. -/
def min (settings : BoundSettings) (ty : IntTy) : Expr := ty.constant (ty.minValue settings)

/-- `std::…::MAX` as a constant. -/
def max (settings : BoundSettings) (ty : IntTy) : Expr := ty.constant (ty.maxValue settings)

end IntTy

namespace UintTy

def maxValue (settings : BoundSettings) (ty : UintTy) : Int := 2 ^ ty.width settings - 1

def min (ty : UintTy) : Expr := ty.constant 0

def max (settings : BoundSettings) (ty : UintTy) : Expr := ty.constant (ty.maxValue settings)

end UintTy

/-- The result is smaller than the first bound or greater than the second one. -/
def outside (result : Expr) (bounds : Expr × Expr) : Expr :=
  Expr.mkOr (Expr.ltCmp result bounds.1) (Expr.gtCmp result bounds.2)

/-- The bounds that the overflow check of each type compares the result with. -/
def checkedBounds (settings : BoundSettings) : PrimitiveTy → Option (Expr × Expr)
  | .uint .u8 => some (UintTy.min .u8, UintTy.max settings .u8)
  | .uint .u16 => some (UintTy.min .u16, UintTy.max settings .u16)
  | .uint .u32 => some (UintTy.min .u32, UintTy.max settings .u32)
  | .uint .u64 => some (UintTy.min .u64, UintTy.max settings .u64)
  | .uint .u128 => some (UintTy.min .u128, UintTy.max settings .u128)
  | .uint .usize => some (UintTy.min .usize, UintTy.max settings .usize)
  | .int .i8 => some (IntTy.min settings .i8, IntTy.max settings .i8)
  -- `MIN` stands on both sides in the source.
  | .int .i16 => some (IntTy.min settings .i16, IntTy.min settings .i16)
  | .int .i32 => some (IntTy.min settings .i32, IntTy.max settings .i32)
  | .int .i64 => some (IntTy.min settings .i64, IntTy.max settings .i64)
  | .int .i128 => some (IntTy.min settings .i128, IntTy.max settings .i128)
  | .int .isize => some (IntTy.min settings .isize, IntTy.max settings .isize)
  | .bool | .char => none

/-- Evaluates to `true` if an overflow happened. -/
def encodeBinOpCheck (settings : BoundSettings) (op : BinOp) (left right : Expr)
    (ty : OperandTy) : Except EncodingError Expr :=
  if !op.isCheckable || !settings.checkOverflows then
    .ok (Expr.ofBool false)
  else do
    let result ← encodeBinOpExpr op left right ty
    let unsupported := EncodingError.unsupported
      s!"overflow checks are unsupported for operation '{op.name}' on type '{ty.name}'"
    match op, ty with
    | .add, .primitive ty | .mul, .primitive ty | .sub, .primitive ty =>
      match checkedBounds settings ty with
      | some bounds => .ok (outside result bounds)
      | none => .error unsupported
    | .add, .other _ | .mul, .other _ | .sub, .other _ => .error unsupported
    | .shl, _ | .shr, _ =>
      .error (.unsupported "overflow checks on a shift operation are unsupported")
    | _, _ => .error (.unreachable op.name)

/-- The bounds of an integer as assertions. -/
def encodeBounds (settings : BoundSettings) (ty : PrimitiveTy) (var : Expr) : List Expr :=
  match ty.getIntegerBounds settings with
  | some (lower, upper) => [Expr.leCmp lower var, Expr.leCmp var upper]
  | none => []

/-- The values of a fixed-width or pointer-sized integer type. -/
def PrimitiveTy.range (settings : BoundSettings) : PrimitiveTy → Option (Int × Int)
  | .int ty => some (ty.minValue settings, ty.maxValue settings)
  | .uint ty => some (0, ty.maxValue settings)
  | .bool | .char => none

/-- The mathematical result of the operations that are checked. -/
def BinOp.exactResult : BinOp → Int → Int → Option Int
  | .add, a, b => some (a + b)
  | .sub, a, b => some (a - b)
  | .mul, a, b => some (a * b)
  | _, _, _ => none

section Eval

variable {M : Model} {state : M.State} {env : M.Env} {left right : Expr} {m n : Int}

variable {l u a b : Int} {settings : BoundSettings} {ty : PrimitiveTy}

/-- An operator that needs both operands. -/
theorem eval_strictOp (op : BinOpKind) (hop : op ≠ .and ∧ op ≠ .or ∧ op ≠ .implies)
    {leftValue rightValue : Val M.U} (hleft : M.eval left state env = some leftValue)
    (hright : M.eval right state env = some rightValue) :
    M.eval (Expr.mkBinOp op left right) state env = M.strictOp op leftValue rightValue := by
  rw [Model.eval_eq]
  obtain ⟨hand, hor, himplies⟩ := hop
  have hnode : M.evalNode (Expr.mkBinOp op left right) [M.eval left, M.eval right] state env =
      (M.eval left state env).bind fun leftValue =>
        (M.eval right state env).bind fun rightValue =>
          M.strictOp op leftValue rightValue := by
    cases op <;> first
      | rfl
      | exact absurd rfl ‹_›
  change M.evalNode (Expr.mkBinOp op left right) [M.eval left, M.eval right] state env = _
  rw [hnode, hleft, hright]
  rfl

theorem eval_mkOr {b c : Bool} (hleft : M.eval left state env = some (.bool b))
    (hright : M.eval right state env = some (.bool c)) :
    M.eval (Expr.mkOr left right) state env = some (.bool (b || c)) := by
  rw [Model.eval_eq]
  change (Model.shortOp .or (M.asBool (M.eval left state env))
    (M.asBool (M.eval right state env))).map Val.bool = _
  rw [hleft, hright]
  cases b <;> rfl

theorem eval_minus (harg : M.eval left state env = some (.int n)) :
    M.eval (Expr.minus left) state env = some (.int (-n)) := by
  rw [Model.eval_eq]
  change M.evalNode (Expr.minus left) [M.eval left] state env = _
  simp only [Expr.minus, Model.evalNode, harg]

theorem eval_ite {guard : Expr} {b : Bool} (hguard : M.eval guard state env = some (.bool b)) :
    M.eval (Expr.ite guard left right) state env =
      if b then M.eval left state env else M.eval right state env := by
  rw [Model.eval_eq]
  change (M.asBool (M.eval guard state env)).bind (fun b =>
    if b then M.eval left state env else M.eval right state env) = _
  rw [hguard]
  rfl

/-- Whether a result is outside of two bounds. -/
theorem eval_outside {result lower upper : Expr} (hresult : M.eval result state env = some (.int n))
    (hlower : M.eval lower state env = some (.int l))
    (hupper : M.eval upper state env = some (.int u)) :
    M.eval (outside result (lower, upper)) state env = some (.bool (decide (n < l ∨ u < n))) := by
  have hbelow : M.eval (Expr.ltCmp result lower) state env = some (.bool (decide (n < l))) :=
    eval_strictOp .ltCmp (by simp) hresult hlower
  have habove : M.eval (Expr.gtCmp result upper) state env = some (.bool (decide (u < n))) :=
    eval_strictOp .gtCmp (by simp) hresult hupper
  rw [outside, eval_mkOr hbelow habove, Bool.decide_or]

/-- The checked operations are encoded by the operations on integers. -/
theorem encodeBinOpExpr_of_exactResult {op : BinOp} (ty : OperandTy)
    (hexact : op.exactResult a b = some n) (hleft : M.eval left state env = some (.int a))
    (hright : M.eval right state env = some (.int b)) :
    ∃ result, encodeBinOpExpr op left right ty = .ok result ∧
      M.eval result state env = some (.int n) := by
  cases op <;> cases hexact
  case add => exact ⟨_, rfl, eval_strictOp .add (by simp) hleft hright⟩
  case sub => exact ⟨_, rfl, eval_strictOp .sub (by simp) hleft hright⟩
  case mul => exact ⟨_, rfl, eval_strictOp .mul (by simp) hleft hright⟩

/-- The upper bound that the check of a type compares with. -/
def checkedUpper (settings : BoundSettings) : PrimitiveTy → Int → Int
  | .int .i16, _ => IntTy.minValue settings .i16
  | _, upper => upper

theorem exists_checkedBounds (hrange : ty.range settings = some (l, u)) :
    ∃ lower upper, checkedBounds settings ty = some (lower, upper) ∧
      M.eval lower state env = some (.int l) ∧
      M.eval upper state env = some (.int (checkedUpper settings ty u)) := by
  cases ty with
  | bool => cases hrange
  | char => cases hrange
  | int ty =>
    cases hrange
    cases ty <;>
      exact ⟨_, _, rfl, PrimitiveTy.eval_intConstant _ _, PrimitiveTy.eval_intConstant _ _⟩
  | uint ty =>
    cases hrange
    cases ty <;>
      exact ⟨_, _, rfl, PrimitiveTy.eval_uintConstant _ _, PrimitiveTy.eval_uintConstant _ _⟩

/-- What an overflow check evaluates to. -/
theorem eval_encodeBinOpCheck (hcheck : settings.checkOverflows = true) {op : BinOp}
    (hexact : op.exactResult a b = some n) (hrange : ty.range settings = some (l, u))
    (hleft : M.eval left state env = some (.int a))
    (hright : M.eval right state env = some (.int b)) :
    ∃ check, encodeBinOpCheck settings op left right (.primitive ty) = .ok check ∧
      M.eval check state env = some (.bool (decide (n < l ∨ checkedUpper settings ty u < n))) := by
  obtain ⟨result, hresult, hvalue⟩ :=
    encodeBinOpExpr_of_exactResult (.primitive ty) hexact hleft hright
  obtain ⟨lower, upper, hbounds, hlower, hupper⟩ := @exists_checkedBounds M state env _ _ _ _ hrange
  refine ⟨outside result (lower, upper), ?_, eval_outside hvalue hlower hupper⟩
  cases op <;> cases hexact <;>
    simp [encodeBinOpCheck, BinOp.isCheckable, hcheck, hresult, hbounds, bind, Except.bind]

/-- The bounds of a type hold of the values in its range. -/
theorem encodeBounds_hold_iff (hrange : ty.range settings = some (l, u))
    (hleft : M.eval left state env = some (.int n)) :
    (∀ bound ∈ encodeBounds settings ty left,
      M.eval bound state env = some (.bool true)) ↔ l ≤ n ∧ n ≤ u := by
  cases ty with
  | bool => cases hrange
  | char => cases hrange
  | int ty =>
    cases hrange
    exact PrimitiveTy.valueBounds_hold_iff false (PrimitiveTy.eval_intConstant _ _)
      (PrimitiveTy.eval_intConstant _ _) hleft
  | uint ty =>
    cases hrange
    exact PrimitiveTy.valueBounds_hold_iff false (PrimitiveTy.eval_ofInt _)
      (PrimitiveTy.eval_uintConstant _ _) hleft

/-- The overflow check of a type tells an overflow exactly, but for `i16`, where it
also reports the results in range that are above the minimum. -/
theorem encodeBinOpCheck_exact_iff {settings : BoundSettings}
    (hcheck : settings.checkOverflows = true) {op : BinOp} {ty : PrimitiveTy}
    {a b l u : Int} (hexact : op.exactResult a b = some n)
    (hrange : ty.range settings = some (l, u)) (hleft : M.eval left state env = some (.int a))
    (hright : M.eval right state env = some (.int b)) :
    (∃ check, encodeBinOpCheck settings op left right (.primitive ty) = .ok check ∧
      (M.eval check state env = some (.bool true) ↔ ¬ (l ≤ n ∧ n ≤ u))) ↔
      ¬ (ty = .int .i16 ∧ l < n ∧ n ≤ u) := by
  obtain ⟨check, hok, hvalue⟩ := eval_encodeBinOpCheck hcheck hexact hrange hleft hright
  have hexists : (∃ check, encodeBinOpCheck settings op left right (.primitive ty) = .ok check ∧
      (M.eval check state env = some (.bool true) ↔ ¬ (l ≤ n ∧ n ≤ u))) ↔
      ((n < l ∨ checkedUpper settings ty u < n) ↔ ¬ (l ≤ n ∧ n ≤ u)) := by
    simp only [hok, Except.ok.injEq, exists_eq_left', hvalue, Option.some.injEq,
      Val.bool.injEq, decide_eq_true_eq]
  rw [hexists]
  by_cases hty : ty = .int .i16
  · subst hty
    cases hrange
    simp only [checkedUpper, IntTy.minValue, IntTy.maxValue, IntTy.width, true_and]
    omega
  · have hupper : checkedUpper settings ty u = u := by
      unfold checkedUpper
      split
      · exact absurd rfl hty
      · rfl
    simp only [hupper, hty, false_and, not_false_eq_true, iff_true]
    omega

/-- The correction of the Euclidean remainder, by the sign of the dividend. -/
theorem tmod_eq_corrected (a b : Int) :
    (if 0 ≤ a ∨ a % b = 0 then a % b else a % b - if 0 ≤ b then b else -b) = a.tmod b := by
  have habs : (if 0 ≤ b then b else -b) = (b.natAbs : Int) := by
    split <;> omega
  rw [habs, Int.tmod_eq_emod]
  by_cases h : 0 ≤ a ∨ a % b = 0
  · rw [if_pos h, if_pos (h.imp_right Int.dvd_of_emod_eq_zero)]
    omega
  · rw [if_neg h, if_neg fun hdvd => h (hdvd.imp_right Int.emod_eq_zero_of_dvd)]

section Division

variable (hb : b ≠ 0) (hleft : M.eval left state env = some (.int a))
  (hright : M.eval right state env = some (.int b))

include hb hleft hright

/-- The encoding of the quotient is the Euclidean one. -/
theorem eval_div (ty : OperandTy) :
    ∃ quotient, encodeBinOpExpr .div left right ty = .ok quotient ∧
      M.eval quotient state env = some (.int (a / b)) := by
  refine ⟨_, rfl, ?_⟩
  rw [eval_strictOp .div (by simp) hleft hright]
  exact if_neg hb

theorem eval_modulo :
    M.eval (Expr.modulo left right) state env = some (.int (a % b)) := by
  rw [Expr.modulo, eval_strictOp .mod (by simp) hleft hright]
  exact if_neg hb

/-- The encoding of the remainder has the sign of the dividend. -/
theorem eval_rem (ty : OperandTy) :
    ∃ remainder, encodeBinOpExpr .rem left right ty = .ok remainder ∧
      M.eval remainder state env = some (.int (a.tmod b)) := by
  refine ⟨_, rfl, ?_⟩
  have hmod := eval_modulo hb hleft hright
  have hzero : M.eval (Expr.ofInt 0) state env = some (.int 0) := PrimitiveTy.eval_ofInt 0
  have habs : M.eval (Expr.ite (Expr.geCmp right (Expr.ofInt 0)) right (Expr.minus right))
      state env = some (.int (if 0 ≤ b then b else -b)) := by
    have hsign : M.eval (Expr.geCmp right (Expr.ofInt 0)) state env =
        some (.bool (decide (0 ≤ b))) := PrimitiveTy.eval_geCmp hright hzero
    rw [eval_ite hsign, hright, eval_minus hright]
    by_cases h : 0 ≤ b <;> simp [h]
  have hguard : M.eval (Expr.mkOr (Expr.geCmp left (Expr.ofInt 0))
      (Expr.eqCmp (Expr.modulo left right) (Expr.ofInt 0))) state env =
      some (.bool (decide (0 ≤ a) || decide (a % b = 0))) := by
    refine eval_mkOr (PrimitiveTy.eval_geCmp hleft hzero) ?_
    rw [Expr.eqCmp, eval_strictOp .eqCmp (by simp) hmod hzero]
    simp [Model.strictOp]
  have hcorrected : M.eval (Expr.mkBinOp .sub (Expr.modulo left right)
      (Expr.ite (Expr.geCmp right (Expr.ofInt 0)) right (Expr.minus right))) state env =
      some (.int (a % b - if 0 ≤ b then b else -b)) :=
    eval_strictOp .sub (by simp) hmod habs
  rw [Expr.rem, eval_ite hguard, hmod, hcorrected, ← tmod_eq_corrected]
  rw [← Bool.decide_or]
  by_cases h : 0 ≤ a ∨ a % b = 0
  · rw [if_pos (decide_eq_true h), if_pos h]
  · rw [if_neg (fun htrue => h (of_decide_eq_true htrue)), if_neg h]

end Division

/-- The Euclidean quotient is truncated when the dividend is not negative or a multiple. -/
theorem ediv_eq_tdiv_iff (hb : b ≠ 0) : a / b = a.tdiv b ↔ 0 ≤ a ∨ b ∣ a := by
  rw [Int.tdiv_eq_ediv]
  by_cases h : 0 ≤ a ∨ b ∣ a
  · simp [h]
  · have hsign : b.sign ≠ 0 := by simpa [Int.sign_eq_zero_iff_zero] using hb
    rw [if_neg h]
    constructor
    · intro heq
      omega
    · intro h'
      exact absurd h' h

/-- Quotient and remainder mean what they mean in Rust exactly when the dividend is not
negative or a multiple of the divisor. -/
theorem encodeBinOpExpr_div_rem_iff {ty : OperandTy} {a b : Int} (hb : b ≠ 0)
    (hleft : M.eval left state env = some (.int a))
    (hright : M.eval right state env = some (.int b)) :
    (∃ quotient remainder q r,
      encodeBinOpExpr .div left right ty = .ok quotient ∧
      encodeBinOpExpr .rem left right ty = .ok remainder ∧
      M.eval quotient state env = some (.int q) ∧
      M.eval remainder state env = some (.int r) ∧
      q = a.tdiv b ∧ r = a.tmod b ∧ a = q * b + r) ↔ 0 ≤ a ∨ b ∣ a := by
  obtain ⟨quotient, hquotient, hq⟩ := eval_div hb hleft hright ty
  obtain ⟨remainder, hremainder, hr⟩ := eval_rem hb hleft hright ty
  rw [← ediv_eq_tdiv_iff hb]
  constructor
  · rintro ⟨quotient', remainder', q, r, hquotient', hremainder', hq', -, rfl, -, -⟩
    cases hquotient.symm.trans hquotient'
    exact Val.int.inj (Option.some.inj (hq.symm.trans hq'))
  · intro heq
    refine ⟨quotient, remainder, a / b, a.tmod b, hquotient, hremainder, hq, hr, heq, rfl, ?_⟩
    rw [heq]
    exact (Int.tdiv_mul_add_tmod a b).symm

end Eval

namespace Witness

/-- Nothing but the integers and the Booleans. -/
def arithmeticModel : Model where
  U := Unit
  State := Unit
  carrier _ := ∅
  fnPtr := ()
  field _ _ _ := none
  variant _ _ _ := none
  addrOf _ _ _ := none
  snap _ _ := none
  old _ state := some state
  unfolding _ _ _ _ state := some state
  func _ _ _ _ _ := none
  domainFunc _ _ := none

/-- The value of an expression without variables. -/
noncomputable def value (expr : Expr) : Option (Val arithmeticModel.U) :=
  arithmeticModel.eval expr () fun _ => none

/-- Overflow checks on a machine with 64 bits. -/
def checkedSettings : BoundSettings := ⟨true, true, 64⟩

/-- The sum of one and one is an `i16`, and the check reports an overflow. -/
theorem encodeBinOpCheck_i16_one_one :
    (∀ bound ∈ encodeBounds checkedSettings (.int .i16) (Expr.ofInt 1),
      value bound = some (.bool true)) ∧
    ∃ check, encodeBinOpCheck checkedSettings .add (Expr.ofInt 1) (Expr.ofInt 1)
        (.primitive (.int .i16)) = .ok check ∧
      value check = some (.bool true) ∧
      ∃ l u, (PrimitiveTy.int .i16).range checkedSettings = some (l, u) ∧
        l ≤ 1 + 1 ∧ 1 + 1 ≤ u := by
  have hrange : (PrimitiveTy.int .i16).range checkedSettings = some (-32768, 32767) := by
    decide
  have hone : value (Expr.ofInt 1) = some (.int 1) := PrimitiveTy.eval_ofInt 1
  refine ⟨(encodeBounds_hold_iff hrange hone).mpr (by decide), ?_⟩
  have hexact : BinOp.add.exactResult 1 1 = some 2 := rfl
  obtain ⟨check, hok, hvalue⟩ := eval_encodeBinOpCheck rfl hexact hrange hone hone
  refine ⟨check, hok, hvalue.trans ?_, -32768, 32767, hrange, by decide, by decide⟩
  exact congrArg (fun b => some (Val.bool b)) (by decide)

theorem encodeBinOpCheck_exact_iff_u8 :
    (∃ check, encodeBinOpCheck checkedSettings .mul (Expr.ofInt 16) (Expr.ofInt 16)
        (.primitive (.uint .u8)) = .ok check ∧
      (value check = some (.bool true) ↔ ¬ ((0 : Int) ≤ 256 ∧ (256 : Int) ≤ 255))) ↔
      ¬ (PrimitiveTy.uint .u8 = .int .i16 ∧ (0 : Int) < 256 ∧ (256 : Int) ≤ 255) :=
  encodeBinOpCheck_exact_iff rfl (show BinOp.mul.exactResult 16 16 = some 256 from rfl)
    (by decide) (PrimitiveTy.eval_ofInt 16) (PrimitiveTy.eval_ofInt 16)

/-- Minus seven divided by two is minus three in Rust and minus four in the encoding. -/
theorem encodeBinOpExpr_div_minus_seven :
    ∃ quotient, encodeBinOpExpr .div (Expr.ofInt (-7)) (Expr.ofInt 2)
        (.primitive (.int .i32)) = .ok quotient ∧
      value quotient = some (.int (-4)) ∧ Int.tdiv (-7) 2 = -3 ∧
      ∃ remainder, encodeBinOpExpr .rem (Expr.ofInt (-7)) (Expr.ofInt 2)
          (.primitive (.int .i32)) = .ok remainder ∧
        value remainder = some (.int (-1)) ∧ (-4) * 2 + (-1) ≠ (-7 : Int) := by
  have hleft : value (Expr.ofInt (-7)) = some (.int (-7)) := PrimitiveTy.eval_ofInt _
  have hright : value (Expr.ofInt 2) = some (.int 2) := PrimitiveTy.eval_ofInt _
  obtain ⟨quotient, hquotient, hq⟩ := eval_div (by decide) hleft hright (.primitive (.int .i32))
  obtain ⟨remainder, hremainder, hr⟩ := eval_rem (by decide) hleft hright (.primitive (.int .i32))
  exact ⟨quotient, hquotient, hq, by decide, remainder, hremainder, hr, by decide⟩

theorem encodeBinOpExpr_div_rem_iff_seven :
    (∃ quotient remainder q r,
      encodeBinOpExpr .div (Expr.ofInt 7) (Expr.ofInt (-2)) (.primitive (.int .i32)) =
        .ok quotient ∧
      encodeBinOpExpr .rem (Expr.ofInt 7) (Expr.ofInt (-2)) (.primitive (.int .i32)) =
        .ok remainder ∧
      value quotient = some (.int q) ∧ value remainder = some (.int r) ∧
      q = Int.tdiv 7 (-2) ∧ r = Int.tmod 7 (-2) ∧ 7 = q * (-2) + r) ↔
      (0 : Int) ≤ 7 ∨ (-2 : Int) ∣ 7 :=
  encodeBinOpExpr_div_rem_iff (by decide) (PrimitiveTy.eval_ofInt 7) (PrimitiveTy.eval_ofInt (-2))

end Witness

end Prusti.Encoder

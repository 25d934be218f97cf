/-
The encoding of numeric casts, as the operand or as a call of a function that checks the
bounds, and the casts of Rust.
-/
import Prusti.Encoder.BinOps

namespace Prusti.Vir

/-- What a function with a body returns, when its precondition holds. -/
def Function.Returns (function : Function) (M : Model) (state : M.State)
    (args : List (Val M.U)) (result : Val M.U) : Prop :=
  (∀ pre ∈ function.pres,
    M.eval pre state (Model.Env.bind (fun _ => none) function.formalArgs args) =
      some (.bool true)) ∧
  ∃ body, function.body = some body ∧
    M.eval body state (Model.Env.bind (fun _ => none) function.formalArgs args) = some result

end Prusti.Vir

namespace Prusti.Encoder

open Prusti.Vir

/-- Numeric casts that cannot fail. -/
def castCannotFail : PrimitiveTy → PrimitiveTy → Bool
  | .char, .char
  | .char, .uint .u8 | .char, .uint .u16 | .char, .uint .u32 | .char, .uint .u64
  | .char, .uint .u128
  | .int .i8, .int .i8 | .int .i8, .int .i16 | .int .i8, .int .i32 | .int .i8, .int .i64
  | .int .i8, .int .i128
  | .int .i16, .int .i16 | .int .i16, .int .i32 | .int .i16, .int .i64
  | .int .i16, .int .i128
  | .int .i32, .int .i32 | .int .i32, .int .i64 | .int .i32, .int .i128
  | .int .i64, .int .i64 | .int .i64, .int .i128
  | .int .i128, .int .i128
  | .int .isize, .int .isize
  | .uint .u8, .char
  | .uint .u8, .uint .u8 | .uint .u8, .uint .u16 | .uint .u8, .uint .u32
  | .uint .u8, .uint .u64 | .uint .u8, .uint .u128
  | .uint .u16, .uint .u16 | .uint .u16, .uint .u32 | .uint .u16, .uint .u64
  | .uint .u16, .uint .u128
  | .uint .u32, .uint .u32 | .uint .u32, .uint .u64 | .uint .u32, .uint .u128
  | .uint .u64, .uint .u64 | .uint .u64, .uint .u128
  | .uint .u128, .uint .u128
  | .uint .usize, .uint .usize => true
  | _, _ => false

/-- Numeric casts where the source value might not fit into the target type. -/
def castMightFail : PrimitiveTy → PrimitiveTy → Bool
  | .char, .int _ | .char, .uint _ | .int _, .char | .int _, .int _ | .int _, .uint _
  | .uint _, .char | .uint _, .int _ | .uint _, .uint _ => true
  | _, _ => false

/-- The type of the values of a primitive type in specifications. -/
def PrimitiveTy.encodeSnapshotType : PrimitiveTy → Typ
  | .bool => .bool
  | .char | .int _ | .uint _ => .int

section CastFunction

variable (settings : BoundSettings) (srcTy dstTy : PrimitiveTy)

def castFunctionName : String :=
  "builtin$cast$" ++ srcTy.encodePredicateUse ++ "$" ++ dstTy.encodePredicateUse

/-- The function that a checked cast calls: the identity, for the numbers that are in the
bounds of both types. -/
def castFunction : Function :=
  let arg : LocalVar := ⟨"number", srcTy.encodeSnapshotType⟩
  let result : LocalVar := ⟨"__result", dstTy.encodeSnapshotType⟩
  { name := castFunctionName srcTy dstTy
    formalArgs := [arg]
    returnType := dstTy.encodeSnapshotType
    pres := encodeBounds settings srcTy (Expr.ofLocal arg) ++
      encodeBounds settings dstTy (Expr.ofLocal arg)
    posts := encodeBounds settings dstTy (Expr.ofLocal result)
    body := some (Expr.ofLocal arg) }

/-- The call of the cast function. -/
def castCall (operand : Expr) (pos : Position) : Expr :=
  .funcApp (castFunctionName srcTy dstTy) [operand] [⟨"number", srcTy.encodeSnapshotType⟩]
    dstTy.encodeSnapshotType pos

end CastFunction

/-- The position is that of the error for a failing cast. -/
def encodeCastExpr (settings : BoundSettings) (operand : Except EncodingError Expr)
    (srcTy dstTy : OperandTy) (pos : Position) : Except EncodingError Expr :=
  let unsupported := EncodingError.unsupported
    ("unsupported cast from type '" ++ srcTy.name ++ "' to type '" ++ dstTy.name ++ "'")
  match srcTy, dstTy with
  | .primitive srcTy, .primitive dstTy =>
    if castCannotFail srcTy dstTy then operand
    else if castMightFail srcTy dstTy then do
      let encodedOperand ← operand
      if settings.checkOverflows then pure (castCall srcTy dstTy encodedOperand pos)
      else pure encodedOperand
    else .error unsupported
  | _, _ => .error unsupported

/-- The casts between numeric types that the compiler accepts: only `u8` is cast to
`char`. -/
def castAccepted : PrimitiveTy → PrimitiveTy → Bool
  | .char, .char | .char, .int _ | .char, .uint _ | .uint .u8, .char => true
  | .int _, .int _ | .int _, .uint _ | .uint _, .int _ | .uint _, .uint _ => true
  | _, _ => false

namespace PrimitiveTy

/-- The values of a numeric type; characters are the Unicode scalar values. -/
def values (settings : BoundSettings) : PrimitiveTy → Set Int
  | bool => ∅
  | char => Set.Icc 0 0xD7FF ∪ Set.Icc 0xE000 0x10FFFF
  | int ty => Set.Icc (ty.minValue settings) (ty.maxValue settings)
  | uint ty => Set.Icc 0 (ty.maxValue settings)

/-- The result of a cast in Rust: the number is truncated to the bits of the type. -/
def rustCast (settings : BoundSettings) : PrimitiveTy → Int → Int
  | int ty, value => value.bmod (2 ^ ty.width settings)
  | uint ty, value => value % 2 ^ ty.width settings
  | bool, value | char, value => value

end PrimitiveTy

/-- The encoded cast of a value is sound: an unchanged operand needs that the cast does not
change the value, and a call that it yields what the function returns. -/
structure CastSound (settings : BoundSettings) (srcTy dstTy : PrimitiveTy) (value : Int) :
    Prop where
  unchanged : ∀ operand pos,
    encodeCastExpr settings (.ok operand) (.primitive srcTy) (.primitive dstTy) pos = .ok operand →
      dstTy.rustCast settings value = value
  call : ∀ operand pos,
    encodeCastExpr settings (.ok operand) (.primitive srcTy) (.primitive dstTy) pos =
        .ok (castCall srcTy dstTy operand pos) →
      ∀ (M : Model) (state : M.State) (result : Int),
        (castFunction settings srcTy dstTy).Returns M state [.int value] (.int result) →
          dstTy.rustCast settings value = result

section Sound

variable {settings : BoundSettings} {srcTy dstTy : PrimitiveTy} {value : Int}

/-- A value in the bounds of a signed type is not truncated. -/
theorem bmod_of_mem {width : Nat} (hwidth : 0 < width)
    (hlower : -2 ^ (width - 1) ≤ value) (hupper : value ≤ 2 ^ (width - 1) - 1) :
    value.bmod (2 ^ width) = value := by
  have hpow : (2 : Nat) ^ width = 2 * 2 ^ (width - 1) := by
    rw [← Nat.pow_succ', Nat.succ_eq_add_one, Nat.sub_add_cancel hwidth]
  have hcast : ((2 ^ (width - 1) : Nat) : Int) = 2 ^ (width - 1) := by norm_cast
  refine Int.bmod_eq_of_le ?_ ?_
  · rw [hpow]
    omega
  · rw [hpow]
    omega

theorem rustCast_of_range (hpointer : 0 < settings.pointerWidth) {lower upper : Int}
    (hrange : dstTy.range settings = some (lower, upper)) (hlower : lower ≤ value)
    (hupper : value ≤ upper) : dstTy.rustCast settings value = value := by
  cases dstTy with
  | bool | char => cases hrange
  | int ty =>
    cases hrange
    refine bmod_of_mem ?_ hlower hupper
    cases ty <;> simp [IntTy.width, hpointer]
  | uint ty =>
    cases hrange
    exact Int.emod_eq_of_lt hlower (Int.lt_of_le_sub_one hupper)

/-- The pairs of types that are listed: characters, and types whose width does not
shrink. -/
theorem castCannotFail_cases (settings : BoundSettings) (h : castCannotFail srcTy dstTy = true) :
    dstTy = .char ∨
      (srcTy = .char ∧ ∃ ty, dstTy = .uint ty ∧ ty ≠ .usize) ∨
      (∃ src dst, srcTy = .int src ∧ dstTy = .int dst ∧ src.width settings ≤ dst.width settings) ∨
      ∃ src dst, srcTy = .uint src ∧ dstTy = .uint dst ∧
        src.width settings ≤ dst.width settings := by
  revert h
  rcases srcTy with _ | _ | src | src <;> rcases dstTy with _ | _ | dst | dst
  case int.int => cases src <;> cases dst <;> simp [castCannotFail, IntTy.width]
  case uint.uint => cases src <;> cases dst <;> simp [castCannotFail, UintTy.width]
  case char.uint => cases dst <;> simp [castCannotFail]
  all_goals simp [castCannotFail]

theorem char_bounds (hvalue : value ∈ PrimitiveTy.char.values settings) :
    0 ≤ value ∧ value ≤ 0x10FFFF := by
  rcases hvalue with ⟨hlower, hupper⟩ | ⟨hlower, hupper⟩
  · exact ⟨hlower, hupper.trans (by decide)⟩
  · exact ⟨le_trans (by decide) hlower, hupper⟩

/-- The only values that a cast that is taken for one that cannot fail changes are the
characters that do not fit. -/
theorem rustCast_of_castCannotFail (hpointer : 0 < settings.pointerWidth)
    (h : castCannotFail srcTy dstTy = true) (hvalue : value ∈ srcTy.values settings) :
    dstTy.rustCast settings value = value ↔
      ¬ (srcTy = .char ∧ (dstTy = .uint .u8 ∧ 0xFF < value ∨
        dstTy = .uint .u16 ∧ 0xFFFF < value)) := by
  rcases castCannotFail_cases settings h with rfl | ⟨rfl, ty, rfl, hty⟩ |
    ⟨src, dst, rfl, rfl, hwidth⟩ | ⟨src, dst, rfl, rfl, hwidth⟩
  · simp [PrimitiveTy.rustCast]
  · obtain ⟨hlower, hupper⟩ := char_bounds hvalue
    cases ty with
    | usize => exact absurd rfl hty
    | u8 | u16 | u32 | u64 | u128 =>
      simp [PrimitiveTy.rustCast, UintTy.width]
      omega
  · refine iff_of_true ?_ (fun himpossible => nomatch himpossible.1)
    have hpow : (2 : Int) ^ (src.width settings - 1) ≤ 2 ^ (dst.width settings - 1) :=
      pow_le_pow_right₀ (by decide) (Nat.sub_le_sub_right hwidth 1)
    obtain ⟨hlower, hupper⟩ := hvalue
    exact rustCast_of_range hpointer rfl ((neg_le_neg hpow).trans hlower)
      (hupper.trans (sub_le_sub_right hpow 1))
  · refine iff_of_true ?_ (fun himpossible => nomatch himpossible.1)
    have hpow : (2 : Int) ^ src.width settings ≤ 2 ^ dst.width settings :=
      pow_le_pow_right₀ (by decide) hwidth
    obtain ⟨hlower, hupper⟩ := hvalue
    exact rustCast_of_range hpointer rfl hlower (hupper.trans (sub_le_sub_right hpow 1))

/-- A cast function returns its argument, which is in the bounds of both types. -/
theorem rustCast_of_returns (hpointer : 0 < settings.pointerWidth)
    (hmight : castMightFail srcTy dstTy = true) {M : Model} {state : M.State} {result : Int}
    (h : (castFunction settings srcTy dstTy).Returns M state [.int value] (.int result)) :
    dstTy.rustCast settings value = result := by
  obtain ⟨hpres, body, hbody, hresult⟩ := h
  have hsrc : srcTy.encodeSnapshotType = .int := by
    cases srcTy with
    | bool => cases hmight
    | _ => rfl
  let env : M.Env := Model.Env.bind (fun _ => none)
    (castFunction settings srcTy dstTy).formalArgs [.int value]
  have harg : M.eval (Expr.ofLocal ⟨"number", srcTy.encodeSnapshotType⟩) state env =
      some (.int value) := by
    rw [Model.eval_eq]
    change M.typed srcTy.encodeSnapshotType (some (.int value)) = _
    simp [hsrc, Model.typed, Model.HasSort]
  cases hbody
  have hsame : value = result := by
    have heq := harg.symm.trans hresult
    exact Val.int.inj (Option.some.inj heq)
  subst hsame
  cases hdst : dstTy with
  | bool =>
    subst hdst
    cases srcTy <;> cases hmight
  | char => rfl
  | int ty | uint ty =>
    have hrange : ∃ l u, dstTy.range settings = some (l, u) := by
      rw [hdst]
      exact ⟨_, _, rfl⟩
    obtain ⟨l, u, hrange⟩ := hrange
    have hbounds := (encodeBounds_hold_iff hrange harg).mp
      fun bound hbound => hpres bound (List.mem_append_right _ hbound)
    rw [hdst] at hrange
    exact rustCast_of_range hpointer hrange hbounds.1 hbounds.2

theorem castCall_ne (operand : Expr) (pos : Position) :
    castCall srcTy dstTy operand pos ≠ operand := by
  intro heq
  have hsize := congrArg sizeOf heq
  simp [castCall] at hsize
  omega

/-- The encoding of an accepted cast of a value of the source type is sound, except for
characters that are cast to `u8` or `u16` and do not fit. -/
theorem castSound_iff (hcheck : settings.checkOverflows = true)
    (hpointer : 0 < settings.pointerWidth) (haccepted : castAccepted srcTy dstTy = true)
    (hvalue : value ∈ srcTy.values settings) :
    CastSound settings srcTy dstTy value ↔
      ¬ (srcTy = .char ∧ (dstTy = .uint .u8 ∧ 0xFF < value ∨
        dstTy = .uint .u16 ∧ 0xFFFF < value)) := by
  have hencode : ∀ operand pos,
      encodeCastExpr settings (.ok operand) (.primitive srcTy) (.primitive dstTy) pos =
        .ok (if castCannotFail srcTy dstTy then operand
          else castCall srcTy dstTy operand pos) := by
    intro operand pos
    have hmight : castMightFail srcTy dstTy = true ∨ castCannotFail srcTy dstTy = true := by
      revert haccepted
      cases srcTy <;> cases dstTy <;> simp [castMightFail, castAccepted, castCannotFail]
    unfold encodeCastExpr
    by_cases hcannot : castCannotFail srcTy dstTy = true
    · simp [hcannot]
    · simp [hcannot, hmight.resolve_right hcannot, hcheck, pure, Except.pure, bind, Except.bind]
  by_cases hcannot : castCannotFail srcTy dstTy = true
  · rw [← rustCast_of_castCannotFail hpointer hcannot hvalue]
    simp only [hcannot, if_true] at hencode
    refine ⟨fun hsound => hsound.unchanged (Expr.ofInt 0) Position.default (hencode _ _),
      fun hcast => ⟨fun _ _ _ => hcast, fun operand pos hcall => ?_⟩⟩
    rw [hencode, Except.ok.injEq] at hcall
    exact absurd hcall.symm (castCall_ne operand pos)
  · have hmight : castMightFail srcTy dstTy = true := by
      revert haccepted hcannot
      cases srcTy <;> cases dstTy <;> simp [castMightFail, castAccepted, castCannotFail]
    simp only [hcannot] at hencode
    refine iff_of_true ⟨fun operand pos hunchanged => ?_,
      fun _ _ _ M state result hreturns => rustCast_of_returns hpointer hmight hreturns⟩ ?_
    · rw [hencode, Except.ok.injEq] at hunchanged
      exact absurd hunchanged (castCall_ne operand pos)
    · rintro ⟨rfl, ⟨rfl, -⟩ | ⟨rfl, -⟩⟩ <;> exact hcannot rfl

end Sound

namespace Witness

/-- The character U+0100 is cast to 0 in Rust, but encoded as 256. -/
theorem charToU8_not_castSound : ¬ CastSound checkedSettings .char (.uint .u8) 0x100 := by
  intro hsound
  have heq := hsound.unchanged (Expr.ofInt 0x100) Position.default rfl
  revert heq
  decide

theorem castSound_iff_u16 :
    CastSound checkedSettings .char (.uint .u16) 0x41 ↔
      ¬ (PrimitiveTy.char = .char ∧
        (PrimitiveTy.uint .u16 = .uint .u8 ∧ (0xFF : Int) < 0x41 ∨
          PrimitiveTy.uint .u16 = .uint .u16 ∧ (0xFFFF : Int) < 0x41)) :=
  castSound_iff rfl (by decide) rfl (.inl ⟨by decide, by decide⟩)

end Witness

end Prusti.Encoder

/-
The discriminants of enumerations: the values in the predicate, and the values that a
`match` compares with.
-/
import Prusti.Encoder.EnumPredicate
import Prusti.Encoder.PrimitiveBounds

namespace Prusti.Encoder

open Prusti.Vir

/-- The width of `isize` and `usize`. -/
structure PointerWidth where
  bits : Nat
  pos : 0 < bits
  le : bits ≤ 128

def IntTy.bits (pointer : PointerWidth) : IntTy → Nat
  | i8 => 8
  | i16 => 16
  | i32 => 32
  | i64 => 64
  | i128 => 128
  | isize => pointer.bits

def UintTy.bits (pointer : PointerWidth) : UintTy → Nat
  | u8 => 8
  | u16 => 16
  | u32 => 32
  | u64 => 64
  | u128 => 128
  | usize => pointer.bits

/-- The representation types of enumerations. -/
inductive DiscrType where
  | signedInt (ty : IntTy)
  | unsignedInt (ty : UintTy)
deriving Repr, DecidableEq

namespace DiscrType

def bits (pointer : PointerWidth) : DiscrType → Nat
  | signedInt ty => ty.bits pointer
  | unsignedInt ty => ty.bits pointer

def toPrimitive : DiscrType → PrimitiveTy
  | signedInt ty => .int ty
  | unsignedInt ty => .uint ty

def isSigned : DiscrType → Bool
  | signedInt _ => true
  | unsignedInt _ => false

/-- The values of the type. -/
def range (pointer : PointerWidth) : DiscrType → Set Int
  | signedInt ty => Set.Ico (-2 ^ (ty.bits pointer - 1)) (2 ^ (ty.bits pointer - 1))
  | unsignedInt ty => Set.Ico 0 (2 ^ ty.bits pointer)

theorem bits_pos (pointer : PointerWidth) (ty : DiscrType) : 0 < ty.bits pointer := by
  rcases ty with (ty | ty) <;> cases ty <;> simp [bits, IntTy.bits, UintTy.bits, pointer.pos]

theorem bits_le (pointer : PointerWidth) (ty : DiscrType) : ty.bits pointer ≤ 128 := by
  rcases ty with (ty | ty) <;> cases ty <;> simp [bits, IntTy.bits, UintTy.bits, pointer.le]

end DiscrType

/-- The discriminants of the variants of an enumeration, which are distinct values of its
representation type. -/
structure AdtDef (pointer : PointerWidth) where
  discrType : DiscrType
  discriminants : List Int
  fits : ∀ discr ∈ discriminants, discr ∈ discrType.range pointer
  nodup : discriminants.Nodup

namespace AdtDef

variable {pointer : PointerWidth}

/-- The raw value of a discriminant: its bits in the representation type, extended by
zeros. -/
def rawValue (adtDef : AdtDef pointer) (discr : Int) : BitVec 128 :=
  BitVec.ofInt 128 (discr % 2 ^ adtDef.discrType.bits pointer)

def rawValues (adtDef : AdtDef pointer) : List (BitVec 128) :=
  adtDef.discriminants.map adtDef.rawValue

end AdtDef

/-- Sign extend the lower bits of a raw value. -/
def signExtend (bits : Nat) (value : BitVec 128) : BitVec 128 :=
  (value <<< (128 - bits)).sshiftRight (128 - bits)

/-- Sign extend the raw representation to be an `i128`. -/
def discriminantValue (pointer : PointerWidth) (discrType : DiscrType) (raw : BitVec 128) : Int :=
  (signExtend (discrType.bits pointer) raw).toInt

/-- Compute the values that a discriminant can take. -/
def computeDiscriminantValues {pointer : PointerWidth} (adtDef : AdtDef pointer) : List Int :=
  adtDef.rawValues.map (discriminantValue pointer adtDef.discrType)

/-- The literal for a value that is given by its bits. -/
def encodeIntCast (pointer : PointerWidth) (value : BitVec 128) : PrimitiveTy → Expr
  | .bool => Expr.ofBool (value != 0)
  | .int ty => ty.constant (value.setWidth (ty.bits pointer)).toInt
  | .uint ty => ty.constant (value.setWidth (ty.bits pointer)).toNat
  | .char => bigIntConst value.toNat

/-- The integer that a literal stands for. -/
def literalValue : Expr → Option Int
  | .const (.int value) _ => some value
  | .const (.bigInt digits) _ => some (intOfDigits digits)
  | _ => none

/-- The integer in the guard of a variant is the integer that a `match` on the discriminant
compares with. -/
def AdtDef.DiscriminantsAgree {pointer : PointerWidth} (adtDef : AdtDef pointer) : Prop :=
  ∀ pair ∈ (computeDiscriminantValues adtDef).zip adtDef.rawValues,
    literalValue (ofBigInt pair.1) =
      literalValue (encodeIntCast pointer pair.2 adtDef.discrType.toPrimitive)

theorem toInt_signExtend {bits : Nat} (hpos : 0 < bits) (hle : bits ≤ 128)
    (value : BitVec 128) : (signExtend bits value).toInt = (value.setWidth bits).toInt := by
  have hpow : (2 : Nat) ^ 128 = 2 ^ (128 - bits) * 2 ^ bits := by
    rw [← Nat.pow_add, Nat.sub_add_cancel hle]
  have hdvd : 2 ∣ 2 ^ bits := dvd_pow_self 2 hpos.ne'
  have hshift : ((value.toNat <<< (128 - bits) : Nat) : Int) =
      ((2 ^ (128 - bits) : Nat) : Int) * (value.toNat : Int) := by
    rw [Nat.shiftLeft_eq, Nat.mul_comm, Nat.cast_mul]
  rw [signExtend, BitVec.toInt_sshiftRight, BitVec.toInt_shiftLeft, BitVec.toInt_setWidth,
    hpow, hshift, Int.mod_bmod_mul_of_pos _ _ (by positivity) hdvd, Int.shiftRight_eq_div_pow]
  exact Int.mul_ediv_cancel_left _ (by positivity)

section Agree

variable {pointer : PointerWidth}

theorem discriminantsAgree_iff_rawValues (adtDef : AdtDef pointer) :
    adtDef.DiscriminantsAgree ↔ ∀ raw ∈ adtDef.rawValues,
      literalValue (ofBigInt (discriminantValue pointer adtDef.discrType raw)) =
        literalValue (encodeIntCast pointer raw adtDef.discrType.toPrimitive) := by
  have hzip : (computeDiscriminantValues adtDef).zip adtDef.rawValues =
      adtDef.rawValues.map fun raw => (discriminantValue pointer adtDef.discrType raw, raw) := by
    have hmap : (computeDiscriminantValues adtDef).zip (adtDef.rawValues.map id) = _ :=
      List.zip_map'
    rwa [List.map_id] at hmap
  rw [AdtDef.DiscriminantsAgree, hzip, List.forall_mem_map]

theorem literalValue_bigIntConst (value : Int) : literalValue (bigIntConst value) = some value :=
  congrArg some (intOfDigits_toString value)

theorem literalValue_encodeIntCast_int (raw : BitVec 128) (ty : IntTy) :
    literalValue (encodeIntCast pointer raw (.int ty)) =
      some (raw.setWidth (ty.bits pointer)).toInt := by
  cases ty <;> first
    | rfl
    | exact literalValue_bigIntConst _

theorem literalValue_encodeIntCast_uint (pointer : PointerWidth) (raw : BitVec 128) (ty : UintTy) :
    literalValue (encodeIntCast pointer raw (.uint ty)) =
      some ((raw.setWidth (ty.bits pointer)).toNat : Int) := by
  cases ty <;> first
    | rfl
    | exact literalValue_bigIntConst _

theorem discriminantValue_eq (discrType : DiscrType) (raw : BitVec 128) :
    discriminantValue pointer discrType raw = (raw.setWidth (discrType.bits pointer)).toInt :=
  toInt_signExtend (discrType.bits_pos pointer) (discrType.bits_le pointer) raw

/-- The bits of a discriminant of an unsigned type are the discriminant. -/
theorem toNat_rawValue {adtDef : AdtDef pointer} {ty : UintTy}
    (hty : adtDef.discrType = .unsignedInt ty) {discr : Int} (hmem : discr ∈ adtDef.discriminants) :
    (((adtDef.rawValue discr).setWidth (ty.bits pointer)).toNat : Int) = discr := by
  have hrange := adtDef.fits discr hmem
  have hle := adtDef.discrType.bits_le pointer
  rw [hty] at hrange hle
  obtain ⟨hnonneg, hlt⟩ := Set.mem_Ico.mp hrange
  obtain ⟨n, rfl⟩ := Int.eq_ofNat_of_zero_le hnonneg
  have hlt' : n < 2 ^ ty.bits pointer := by exact_mod_cast hlt
  have hlarge : n < 2 ^ 128 := lt_of_lt_of_le hlt' (Nat.pow_le_pow_right (by decide) hle)
  have hbits : adtDef.discrType.bits pointer = ty.bits pointer := by rw [hty]; rfl
  have hraw : adtDef.rawValue n = BitVec.ofNat 128 n := by
    rw [AdtDef.rawValue, hbits, Int.emod_eq_of_lt hnonneg hlt, BitVec.ofInt_natCast]
  rw [hraw, BitVec.toNat_setWidth, BitVec.toNat_ofNat, Nat.mod_eq_of_lt hlarge,
    Nat.mod_eq_of_lt hlt']

theorem toInt_eq_toNat_iff {bits : Nat} (hpos : 0 < bits) (value : BitVec bits) :
    value.toInt = value.toNat ↔ (value.toNat : Int) < 2 ^ (bits - 1) := by
  have hpow : (2 : Nat) ^ bits = 2 * 2 ^ (bits - 1) := by
    rw [← Nat.pow_succ', Nat.succ_eq_add_one, Nat.sub_add_cancel hpos]
  have hlt := value.isLt
  rw [BitVec.toInt_eq_toNat_cond]
  split
  · next h =>
      refine ⟨fun _ => ?_, fun _ => rfl⟩
      have hhalf : value.toNat < 2 ^ (bits - 1) := by omega
      exact_mod_cast hhalf
  · next h =>
      constructor
      · intro heq
        omega
      · intro hhalf
        have hhalf : value.toNat < 2 ^ (bits - 1) := by exact_mod_cast hhalf
        omega

/-- The two values of a discriminant are the same if and only if the type is signed or the
discriminant is below half the size of the type. -/
theorem AdtDef.discriminantsAgree_iff (adtDef : AdtDef pointer) :
    adtDef.DiscriminantsAgree ↔
      adtDef.discrType.isSigned = true ∨
        ∀ discr ∈ adtDef.discriminants, discr < 2 ^ (adtDef.discrType.bits pointer - 1) := by
  have hguard : ∀ raw, literalValue (ofBigInt (discriminantValue pointer adtDef.discrType raw)) =
      some (raw.setWidth (adtDef.discrType.bits pointer)).toInt := by
    intro raw
    rw [← discriminantValue_eq]
    exact literalValue_bigIntConst _
  simp only [discriminantsAgree_iff_rawValues, hguard, rawValues, List.forall_mem_map]
  cases hty : adtDef.discrType with
  | signedInt ty =>
    refine iff_of_true (fun discr _ => ?_) (.inl rfl)
    exact (literalValue_encodeIntCast_int _ ty).symm
  | unsignedInt ty =>
    have hpos := DiscrType.bits_pos pointer (.unsignedInt ty)
    rw [DiscrType.isSigned, or_iff_right Bool.false_ne_true]
    refine forall₂_congr fun discr hmem => ?_
    have hcast := literalValue_encodeIntCast_uint pointer (adtDef.rawValue discr) ty
    have hvalue := toNat_rawValue hty hmem
    rw [DiscrType.toPrimitive, hcast, Option.some.injEq]
    refine (toInt_eq_toNat_iff hpos _).trans ?_
    rw [DiscrType.bits, hvalue]

end Agree

namespace Witness

def pointer64 : PointerWidth := ⟨64, by decide, by decide⟩

/-- `#[repr(u8)] enum E { A = 1, B = 200 }`. -/
def unsignedEnum : AdtDef pointer64 where
  discrType := .unsignedInt .u8
  discriminants := [1, 200]
  fits := by
    intro discr hmem
    have hcases : discr = 1 ∨ discr = 200 := by simpa using hmem
    rcases hcases with rfl | rfl <;> exact ⟨by decide, by decide⟩
  nodup := by decide

/-- The guard of `B` compares with -56, a `match` with 200. -/
theorem unsignedEnum_not_agree : ¬ unsignedEnum.DiscriminantsAgree := by
  intro h
  have heq := h (-56, BitVec.ofNat 128 200) (by decide)
  have hcast : literalValue (encodeIntCast pointer64 (BitVec.ofNat 128 200)
      unsignedEnum.discrType.toPrimitive) = some 200 := rfl
  rw [hcast, show literalValue (ofBigInt (-56)) = some (-56) from
    literalValue_bigIntConst (-56)] at heq
  revert heq
  decide

end Witness

end Prusti.Encoder

/-
The ranges of consecutive values of 128-bit integers.  The successor of the largest
integer overflows.
-/
import Prusti.Lib.Runs
import Prusti.Encoder.BinOps
import Prusti.Encoder.EnumPredicate

namespace Prusti.Encoder

open Prusti.Vir Prusti.Lib

/-- Increment by one; `none` stands for an overflow. -/
class PlusOne (T : Type) where
  plusOne : T → Option T

/-- The increment is the next value, and fails for the largest value only. -/
class LawfulPlusOne (T : Type) [LinearOrder T] [PlusOne T] : Prop where
  plusOne_eq_some_iff : ∀ value next : T, PlusOne.plusOne value = some next ↔ value ⋖ next
  exists_plusOne : ∀ value greater : T, value < greater → ∃ next, PlusOne.plusOne value = some next

/-- The integers between two bounds. -/
structure BoundedInt (lower upper : Int) where
  value : Int
  lower_le : lower ≤ value
  le_upper : value ≤ upper

namespace BoundedInt

variable {lower upper : Int}

theorem value_injective : Function.Injective (@value lower upper) := by
  intro left right heq
  cases left
  cases right
  cases heq
  rfl

instance : LinearOrder (BoundedInt lower upper) := LinearOrder.lift' value value_injective

theorem value_lt_iff (left right : BoundedInt lower upper) :
    left.value < right.value ↔ left < right := Iff.rfl

/-- Addition panics on an overflow. -/
instance : PlusOne (BoundedInt lower upper) where
  plusOne number :=
    if h : number.value + 1 ≤ upper then
      some ⟨number.value + 1, number.lower_le.trans (Int.le_add_one le_rfl), h⟩
    else none

theorem plusOne_eq_some_iff_value (number next : BoundedInt lower upper) :
    PlusOne.plusOne number = some next ↔ next.value = number.value + 1 := by
  have hle := next.le_upper
  simp only [PlusOne.plusOne]
  split
  · rw [Option.some.injEq, ← value_injective.eq_iff]
    exact eq_comm
  · next h =>
      refine iff_of_false (by simp) fun heq => h ?_
      rwa [← heq]

/-- Nothing lies between two integers if and only if they differ by one. -/
theorem covBy_iff (number next : BoundedInt lower upper) :
    number ⋖ next ↔ next.value = number.value + 1 := by
  constructor
  · intro hcover
    have hlt : number.value < next.value := hcover.1
    by_contra hne
    let middle : BoundedInt lower upper :=
      ⟨number.value + 1, number.lower_le.trans (Int.le_add_one le_rfl),
        (Int.add_one_le_of_lt hlt).trans next.le_upper⟩
    have habove : number < middle := (value_lt_iff _ _).mp (Int.lt_succ _)
    have hbelow : middle.value < next.value :=
      lt_of_le_of_ne (Int.add_one_le_of_lt hlt) fun heq => hne heq.symm
    exact hcover.2 habove hbelow
  · intro heq
    refine ⟨(value_lt_iff _ _).mp (by omega), fun other habove hbelow => ?_⟩
    rw [← value_lt_iff] at habove hbelow
    omega

instance : LawfulPlusOne (BoundedInt lower upper) where
  plusOne_eq_some_iff number next :=
    (plusOne_eq_some_iff_value number next).trans (covBy_iff number next).symm
  exists_plusOne number greater hlt := by
    have hlt' : number.value < greater.value := hlt
    refine ⟨⟨number.value + 1, ?_, ?_⟩, (plusOne_eq_some_iff_value _ _).mpr rfl⟩
    · exact number.lower_le.trans (Int.le_add_one le_rfl)
    · exact (Int.add_one_le_of_lt hlt').trans greater.le_upper

end BoundedInt

abbrev I128 : Type := BoundedInt (-2 ^ 127) (2 ^ 127 - 1)

namespace PlusOne

variable {T : Type} [LinearOrder T] [PlusOne T]

/-- Extend the current range by consecutive values, or close it. -/
def rangeLoop : T × T → List T → Option (List (T × T))
  | current, [] => some [current]
  | current, value :: rest => do
    let next ← plusOne current.2
    if value == next then rangeLoop (current.1, next) rest
    else return current :: (← rangeLoop (value, value) rest)

/-- The ranges of the values; `none` stands for an overflow. -/
def rangeExtract (values : List T) : Option (List (T × T)) :=
  match values.insertionSort (· ≤ ·) with
  | [] => some []
  | value :: rest => rangeLoop (value, value) rest

/-- What the loop returns for a current range and the values above it. -/
theorem rangeLoop_spec [LawfulPlusOne T] {current : T × T} {rest : List T}
    (hcurrent : current.1 ≤ current.2) (hrest : (current.2 :: rest).Pairwise (· < ·)) :
    ∃ ranges, rangeLoop current rest = some ranges ∧
      IsRuns ranges (Set.Icc current.1 current.2 ∪ {value | value ∈ rest}) ∧
      ∀ range ∈ ranges, current.1 ≤ range.1 := by
  induction rest generalizing current with
  | nil =>
    refine ⟨[current], rfl, ?_, by simp⟩
    simpa using IsRuns.single hcurrent
  | cons value rest ih =>
    obtain ⟨habove, hsorted⟩ := List.pairwise_cons.mp hrest
    have hlt := habove value List.mem_cons_self
    obtain ⟨next, hnext⟩ := LawfulPlusOne.exists_plusOne current.2 value hlt
    have hset : {elem | elem ∈ value :: rest} = {value} ∪ {elem | elem ∈ rest} := by
      ext elem
      simp
    rw [rangeLoop, hnext, hset]
    by_cases hvalue : value = next
    · -- The value extends the current range.
      subst hvalue
      have hcover := (LawfulPlusOne.plusOne_eq_some_iff _ _).mp hnext
      obtain ⟨ranges, hranges, hruns, hle⟩ := @ih (current.1, value) (hcurrent.trans hlt.le) hsorted
      refine ⟨ranges, ?_, ?_, hle⟩
      · simpa using hranges
      · rwa [← Set.union_assoc, Icc_union_singleton_of_covBy hcurrent hcover]
    · -- There is a gap, so the current range is closed.
      have hcover : ¬ current.2 ⋖ value := by
        intro hcover
        rw [← LawfulPlusOne.plusOne_eq_some_iff, hnext] at hcover
        exact hvalue (Option.some.inj hcover).symm
      obtain ⟨ranges, hranges, hruns, hle⟩ := @ih (value, value) le_rfl hsorted
      rw [Set.Icc_self] at hruns
      refine ⟨current :: ranges, ?_, IsRuns.cons hcurrent hruns hle hlt hcover, ?_⟩
      · simp [hvalue, hranges]
      · intro range hrange
        rcases List.mem_cons.mp hrange with rfl | hrange
        · exact le_rfl
        · exact (hcurrent.trans hlt.le).trans (hle range hrange)

/-- On values without repetition the increment never overflows, and the ranges are the
maximal runs of the values. -/
theorem rangeExtract_spec [LawfulPlusOne T] {values : List T} (hnodup : values.Nodup) :
    ∃ ranges, rangeExtract values = some ranges ∧ IsRuns ranges {value | value ∈ values} := by
  have hmem : ∀ value, value ∈ values.insertionSort (· ≤ ·) ↔ value ∈ values :=
    fun _ => List.mem_insertionSort _
  have hsorted : (values.insertionSort (· ≤ ·)).Pairwise (· < ·) :=
    (List.pairwise_insertionSort _ values).imp₂ (fun _ _ hle hne => lt_of_le_of_ne hle hne)
      ((List.perm_insertionSort _ values).nodup_iff.mpr hnodup)
  unfold rangeExtract
  cases hsort : values.insertionSort (· ≤ ·) with
  | nil =>
    refine ⟨[], rfl, ⟨by simp, .nil, .nil, ?_⟩⟩
    intro elem
    rw [hsort] at hmem
    simpa using hmem elem
  | cons value rest =>
    rw [hsort] at hmem hsorted
    obtain ⟨ranges, hranges, hruns, -⟩ :=
      rangeLoop_spec (show (value, value).1 ≤ (value, value).2 from le_rfl) hsorted
    refine ⟨ranges, hranges, ?_⟩
    convert hruns using 1
    ext elem
    rw [Set.Icc_self, Set.mem_ofPred_eq, ← hmem, List.mem_cons]
    rfl

end PlusOne

namespace I128

/-- The ranges as pairs of integers. -/
def toIntRange (range : I128 × I128) : Int × Int := (range.1.value, range.2.value)

/-- Compute the minimal disjunction; a type without values has no restriction. -/
def computeDiscriminantBounds (discriminantLoc : Expr) (discrValues : List I128) : Option Expr :=
  if discrValues.isEmpty then some (Expr.ofBool true)
  else do
    let ranges ← PlusOne.rangeExtract discrValues
    return Expr.disjoin (ranges.map fun range => rangeExpr discriminantLoc (toIntRange range))

theorem rangeLoop_toIntRange {current : I128 × I128} {rest : List I128}
    {ranges : List (I128 × I128)} (h : PlusOne.rangeLoop current rest = some ranges) :
    ranges.map toIntRange = Encoder.rangeLoop (toIntRange current) (rest.map BoundedInt.value) := by
  induction rest generalizing current ranges with
  | nil =>
    cases h
    rfl
  | cons value rest ih =>
    rw [PlusOne.rangeLoop] at h
    obtain ⟨next, hnext, h⟩ := Option.bind_eq_some_iff.mp h
    have hvalue := (BoundedInt.plusOne_eq_some_iff_value _ _).mp hnext
    rw [List.map_cons, Encoder.rangeLoop]
    split at h
    · next heq =>
        have hsame : value = next := by simpa using heq
        rw [if_pos (by simp [hsame, hvalue, toIntRange]), ih h, toIntRange, hvalue]
        rfl
    · next hne =>
        obtain ⟨others, hothers, h⟩ := Option.bind_eq_some_iff.mp h
        cases h
        have hdiffers : value.value ≠ current.2.value + 1 := by
          rw [← hvalue, Ne, BoundedInt.value_injective.eq_iff]
          simpa using hne
        rw [if_neg (by simpa [toIntRange] using hdiffers), List.map_cons, ih hothers]
        rfl

/-- Without an overflow the ranges are those of the unbounded integers. -/
theorem rangeExtract_toIntRange {values : List I128} {ranges : List (I128 × I128)}
    (h : PlusOne.rangeExtract values = some ranges) :
    ranges.map toIntRange = Encoder.rangeExtract (values.map BoundedInt.value) := by
  have hsort : (values.map BoundedInt.value).insertionSort (· ≤ ·) =
      (values.insertionSort (· ≤ ·)).map BoundedInt.value :=
    (List.map_insertionSort (· ≤ ·) (· ≤ ·) BoundedInt.value values fun _ _ _ _ => Iff.rfl).symm
  unfold PlusOne.rangeExtract at h
  rw [Encoder.rangeExtract, hsort]
  split at h
  · next hnil =>
      cases h
      rw [hnil]
      rfl
  · next hcons =>
      rw [hcons]
      exact rangeLoop_toIntRange h

/-- Without an overflow the bounds are those over the unbounded integers. -/
theorem eq_computeDiscriminantBounds {discriminantLoc bounds : Expr} {values : List I128}
    (h : computeDiscriminantBounds discriminantLoc values = some bounds) :
    bounds = Encoder.computeDiscriminantBounds discriminantLoc (values.map BoundedInt.value) := by
  unfold computeDiscriminantBounds at h
  unfold Encoder.computeDiscriminantBounds
  rw [List.isEmpty_map]
  split at h
  · next hempty =>
      rw [if_pos hempty]
      exact (Option.some.inj h).symm
  · next hne =>
      obtain ⟨ranges, hranges, h⟩ := Option.bind_eq_some_iff.mp h
      rw [if_neg hne, ← rangeExtract_toIntRange hranges, List.map_map]
      exact (Option.some.inj h).symm

section Eval

variable {M : Model} {state : M.State} {env : M.Env} {discriminantLoc : Expr} {n : Int}

/-- The condition for a range holds of the integers in the range. -/
theorem eval_rangeExpr (hloc : M.eval discriminantLoc state env = some (.int n))
    (range : I128 × I128) :
    M.eval (rangeExpr discriminantLoc (toIntRange range)) state env =
      some (.bool (decide (n ∈ Set.Icc range.1.value range.2.value))) := by
  have hlower : M.eval (ofBigInt range.1.value) state env = some (.int range.1.value) :=
    PrimitiveTy.eval_bigIntConst _
  have hupper : M.eval (ofBigInt range.2.value) state env = some (.int range.2.value) :=
    PrimitiveTy.eval_bigIntConst _
  unfold rangeExpr toIntRange
  split
  · next heq =>
      -- A range of one value is compared with that value.
      have hsame : range.1.value = range.2.value := by simpa using heq
      refine (eval_strictOp .eqCmp (by simp) hloc hlower).trans ?_
      simp [Model.strictOp, ← hsame, le_antisymm_iff]
  · rw [PrimitiveTy.eval_mkAnd (PrimitiveTy.eval_leCmp hlower hloc)
      (PrimitiveTy.eval_leCmp hloc hupper)]
    simp [Set.mem_Icc]

/-- A disjunction holds when one of its disjuncts does. -/
theorem eval_disjoin {α : Type} (items : List α) {disjunct : α → Expr} {holds : α → Bool}
    (h : ∀ item, M.eval (disjunct item) state env = some (.bool (holds item))) :
    M.eval (Expr.disjoin (items.map disjunct)) state env = some (.bool (items.any holds)) := by
  induction items with
  | nil =>
    rw [Model.eval_eq]
    rfl
  | cons item items ih => exact eval_mkOr (h item) ih

end Eval

/-- The ranges of a non-empty list without repetition, in any order, are computed without
an overflow and are its maximal runs, and the disjunction of their bounds holds of an integer
if and only if it is one of the values. -/
theorem computeDiscriminantBounds_exact (discrValues : List I128) (hne : discrValues ≠ [])
    (hnodup : discrValues.Nodup) (discriminantLoc : Expr) :
    ∃ ranges bounds, PlusOne.rangeExtract discrValues = some ranges ∧
      IsRuns ranges {value | value ∈ discrValues} ∧
      computeDiscriminantBounds discriminantLoc discrValues = some bounds ∧
      ∀ (M : Model) (state : M.State) (env : M.Env) (n : Int),
        M.eval discriminantLoc state env = some (.int n) →
          M.eval bounds state env =
            some (.bool (decide (∃ value ∈ discrValues, value.value = n))) := by
  obtain ⟨ranges, hranges, hruns⟩ := PlusOne.rangeExtract_spec hnodup
  refine ⟨ranges, Expr.disjoin (ranges.map fun range =>
    rangeExpr discriminantLoc (toIntRange range)), hranges, hruns, ?_, ?_⟩
  · simp only [computeDiscriminantBounds, List.isEmpty_iff, hne, if_false, hranges]
    rfl
  · intro M state env n hloc
    rw [eval_disjoin ranges (eval_rangeExpr hloc), Option.some.injEq, Val.bool.injEq,
      Bool.eq_iff_iff, List.any_eq_true, decide_eq_true_iff]
    constructor
    · rintro ⟨range, hrange, hmem⟩
      obtain ⟨hlower, hupper⟩ := of_decide_eq_true hmem
      let value : I128 := ⟨n, range.1.lower_le.trans hlower, hupper.trans range.2.le_upper⟩
      exact ⟨value, (hruns.mem_iff value).mpr ⟨range, hrange, hlower, hupper⟩, rfl⟩
    · rintro ⟨value, hvalue, rfl⟩
      obtain ⟨range, hrange, hlower, hupper⟩ := (hruns.mem_iff value).mp hvalue
      exact ⟨range, hrange, decide_eq_true ⟨hlower, hupper⟩⟩

end I128

namespace Witness

/-- The values -1, the largest one and the one below it. -/
def largestValues : List I128 :=
  [⟨2 ^ 127 - 1, by decide, by decide⟩, ⟨-1, by decide, by decide⟩,
    ⟨2 ^ 127 - 2, by decide, by decide⟩]

theorem computeDiscriminantBounds_exact_largest :
    ∃ ranges bounds, PlusOne.rangeExtract largestValues = some ranges ∧
      IsRuns ranges {value | value ∈ largestValues} ∧
      I128.computeDiscriminantBounds (Expr.ofLocal ⟨"_1", .int⟩) largestValues = some bounds ∧
      ∀ (M : Model) (state : M.State) (env : M.Env) (n : Int),
        M.eval (Expr.ofLocal ⟨"_1", .int⟩) state env = some (.int n) →
          M.eval bounds state env =
            some (.bool (decide (∃ value ∈ largestValues, value.value = n))) :=
  I128.computeDiscriminantBounds_exact largestValues (by decide) (by decide)
    (Expr.ofLocal ⟨"_1", .int⟩)

end Witness

end Prusti.Encoder

/-
Permission masks.  A mask gives every resource an amount from an ordered
group.  A statement that trades resources consumes one mask and produces
another one; it is enabled if what it consumes is there.
-/
import Mathlib.Algebra.Order.Pi

namespace Prusti.Lib

universe u v

/-- The amount held of every resource. -/
abbrev Mask (R : Type u) (Q : Type v) := R → Q

namespace Mask

variable {R : Type u} [BEq R] {Q : Type v} [AddCommGroup Q]

/-- One amount of a single resource. -/
def single (resource : R) (amount : Q) : Mask R Q := fun other =>
  if resource == other then amount else 0

/-- The sum of a list of amounts. -/
def total : List (R × Q) → Mask R Q
  | [] => 0
  | item :: rest => single item.1 item.2 + total rest

theorem total_perm {left right : List (R × Q)} (h : left.Perm right) :
    total left = total right := by
  induction h with
  | nil => rfl
  | cons item _ ih => rw [total, total, ih]
  | swap item item' rest =>
    simp only [total]
    exact add_left_comm _ _ _
  | trans _ _ ih ih' => exact ih.trans ih'

end Mask

/-- What a statement takes from a mask and what it gives back. -/
structure Exchange (R : Type u) (Q : Type v) where
  consume : Mask R Q
  produce : Mask R Q

namespace Exchange

variable {R : Type u} {Q : Type v} [AddCommGroup Q] [PartialOrder Q]

def Enabled (mask : Mask R Q) (exchange : Exchange R Q) : Prop := exchange.consume ≤ mask

def fire (mask : Mask R Q) (exchange : Exchange R Q) : Mask R Q :=
  mask - exchange.consume + exchange.produce

/-- A run of exchanges, each of them enabled when it is its turn. -/
inductive Run : Mask R Q → List (Exchange R Q) → Mask R Q → Prop where
  | nil (mask : Mask R Q) : Run mask [] mask
  | cons {mask final : Mask R Q} {exchange : Exchange R Q}
      {rest : List (Exchange R Q)} (henabled : exchange.Enabled mask)
      (hrest : Run (exchange.fire mask) rest final) :
      Run mask (exchange :: rest) final

theorem Run.append {first middle last : Mask R Q}
    {left right : List (Exchange R Q)} (hleft : Run first left middle)
    (hright : Run middle right last) : Run first (left ++ right) last := by
  induction hleft with
  | nil mask => exact hright
  | cons henabled _ ih => exact Run.cons henabled (ih hright)

theorem Run.single {mask : Mask R Q} {exchange : Exchange R Q} (henabled : exchange.Enabled mask) :
    Run mask [exchange] (exchange.fire mask) :=
  Run.cons henabled (Run.nil _)

/-- What can be subtracted without going below zero is there. -/
theorem enabled_of_nonneg [IsOrderedAddMonoid Q] {mask : Mask R Q}
    {exchange : Exchange R Q} (h : 0 ≤ mask - exchange.consume) :
    exchange.Enabled mask :=
  sub_nonneg.mp h

end Exchange

end Prusti.Lib

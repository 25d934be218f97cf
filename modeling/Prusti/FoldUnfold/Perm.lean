/-
Access and predicate permissions to places, sets of them, and the errors of
the fold-unfold algorithm.
-/
import Prusti.Lib.Outcome
import Prusti.Vir.Predicate

namespace Prusti.FoldUnfold

open Prusti.Vir Prusti.Lib

/-- An access or predicate permission to a place. -/
inductive Perm where
  | acc (place : Expr) (amount : PermAmount)
  | pred (place : Expr) (amount : PermAmount)
deriving Repr

/-- The two kinds of permissions. -/
inductive Kind where
  | acc
  | pred
deriving Repr, DecidableEq

namespace Perm

def kind : Perm → Kind
  | acc _ _ => .acc
  | pred _ _ => .pred

def isAcc : Perm → Bool
  | acc _ _ => true
  | pred _ _ => false

def isPred : Perm → Bool
  | acc _ _ => false
  | pred _ _ => true

def getPlace : Perm → Expr
  | acc place _ | pred place _ => place

def getPermAmount : Perm → PermAmount
  | acc _ amount | pred _ amount => amount

def isCurr (perm : Perm) : Bool := perm.getPlace.isCurr

def isLocal (perm : Perm) : Bool := perm.getPlace.isLocal

def typedRefName (perm : Perm) : Option String := perm.getPlace.typedRefName

def getLabel (perm : Perm) : Option String := perm.getPlace.getLabel

def hasProperPrefix (perm : Perm) (other : Expr) : Bool := perm.getPlace.hasProperPrefix other

/-- Put another place into a permission. -/
def withPlace : Perm → Expr → Perm
  | acc _ amount, place => acc place amount
  | pred _ amount, place => pred place amount

/-- Put another amount into a permission. -/
def withAmount : Perm → PermAmount → Perm
  | acc place _, amount => acc place amount
  | pred place _, amount => pred place amount

/-- Apply a function on places; `none` stands for a panic. -/
def mapPlace (perm : Perm) (f : Expr → Option Expr) : Option Perm :=
  (f perm.getPlace).map perm.withPlace

/-- Both the old and the new amount have to be valid for specifications;
`none` stands for a failed assertion. -/
def initPermAmount (perm : Perm) (newPerm : PermAmount) : Option Perm :=
  if newPerm.isValidForSpecs && perm.getPermAmount != .remaining then
    some (perm.withAmount newPerm)
  else none

def updatePermAmount (perm : Perm) (newPerm : PermAmount) : Option Perm :=
  if perm.getPermAmount.isValidForSpecs && newPerm.isValidForSpecs then
    some (perm.withAmount newPerm)
  else none

def setDefaultPos (perm : Perm) (pos : Position) : Perm :=
  perm.withPlace (perm.getPlace.setDefaultPos pos)

/-- The derived equality. -/
instance : BEq Perm := ⟨fun left right =>
  left.kind == right.kind && left.getPlace == right.getPlace &&
    left.getPermAmount == right.getPermAmount⟩

theorem beq_iff (left right : Perm) :
    (left == right) = true ↔
      left.kind = right.kind ∧ (left.getPlace == right.getPlace) = true ∧
        left.getPermAmount = right.getPermAmount := by
  change (left.kind == right.kind && left.getPlace == right.getPlace &&
    left.getPermAmount == right.getPermAmount) = true ↔ _
  simp [and_assoc]

instance : PartialEquivBEq Perm where
  symm {left right} h := by
    rw [beq_iff] at h ⊢
    exact ⟨h.1.symm, BEq.symm h.2.1, h.2.2.symm⟩
  trans {left middle right} h h' := by
    rw [beq_iff] at h h' ⊢
    exact ⟨h.1.trans h'.1, BEq.trans h.2.1 h'.2.1, h.2.2.trans h'.2.2⟩

@[simp] theorem getPlace_withAmount (perm : Perm) (amount : PermAmount) :
    (perm.withAmount amount).getPlace = perm.getPlace := by
  cases perm <;> rfl

@[simp] theorem kind_withAmount (perm : Perm) (amount : PermAmount) :
    (perm.withAmount amount).kind = perm.kind := by
  cases perm <;> rfl

@[simp] theorem getPermAmount_withAmount (perm : Perm) (amount : PermAmount) :
    (perm.withAmount amount).getPermAmount = amount := by
  cases perm <;> rfl

@[simp] theorem getPlace_withPlace (perm : Perm) (place : Expr) :
    (perm.withPlace place).getPlace = place := by
  cases perm <;> rfl

@[simp] theorem withAmount_getPermAmount (perm : Perm) :
    perm.withAmount perm.getPermAmount = perm := by
  cases perm <;> rfl

theorem isPred_iff_kind (perm : Perm) : perm.isPred = true ↔ perm.kind = .pred := by
  cases perm <;> simp [isPred, kind]

end Perm

inductive FoldUnfoldError where
  /-- The algorithm failed to obtain a permission. -/
  | failedToObtain (perm : Perm)
  /-- The algorithm tried to generate a `folding .. in ..` expression. -/
  | requiresFolding (name : String) (args : List Expr) (amount : PermAmount)
      (variant : Option EnumVariantIndex) (pos : Position)
  | invalidPermAmountAdd (message : String)
  | invalidPermAmountSub (message : String)
  | missingPredicate (name : String)
  | failedToRemovePred (place : Expr)
  | missingLabel (label : String)
  | unsupported (message : String)
deriving Repr

/-- The ways in which a modelled function fails to return: an error value, a
panic, or the end of the fuel that bounds its recursion. -/
inductive Exn where
  | error (error : FoldUnfoldError)
  | panic
  | outOfFuel
deriving Repr

/-- Turn a missing value into a panic. -/
def orPanic {α : Type} : Option α → Except Exn α
  | some value => .ok value
  | none => .error .panic

/-- An assertion. -/
def assert (condition : Bool) : Except Exn Unit :=
  if condition then .ok () else .error .panic

def PermAmount.addE (left right : PermAmount) : Except Exn PermAmount :=
  match left.add right with
  | some sum => .ok sum
  | none => .error (.error (.invalidPermAmountAdd
      ("invalid addition: " ++ left.display ++ " + " ++ right.display)))

def PermAmount.subE (left right : PermAmount) : Except Exn PermAmount :=
  match left.sub right with
  | some difference => .ok difference
  | none => .error (.error (.invalidPermAmountSub
      ("invalid substraction: " ++ left.display ++ " - " ++ right.display)))

theorem orPanic_eq_ok_iff {α : Type} (value? : Option α) (value : α) :
    orPanic value? = .ok value ↔ value? = some value := by
  cases value? <;> simp [orPanic]

theorem assert_eq_ok_iff (condition : Bool) (u : Unit) :
    assert condition = .ok u ↔ condition = true := by
  cases condition <;> simp [assert]

theorem addE_eq_ok_iff (left right sum : PermAmount) :
    PermAmount.addE left right = .ok sum ↔ left.add right = some sum := by
  unfold PermAmount.addE
  cases left.add right <;> simp

theorem subE_eq_ok_iff (left right difference : PermAmount) :
    PermAmount.subE left right = .ok difference ↔ left.sub right = some difference := by
  unfold PermAmount.subE
  cases left.sub right <;> simp

/-- A set of permissions, as it is framed. -/
structure PermSet where
  accPerms : HashMap Expr PermAmount
  predPerms : HashMap Expr PermAmount

namespace PermSet

def empty : PermSet := ⟨HashMap.empty, HashMap.empty⟩

/-- The amount is overwritten if the place is already there. -/
def add (set : PermSet) : Perm → PermSet
  | .acc place amount =>
    { set with accPerms := set.accPerms.insert place amount }
  | .pred place amount =>
    { set with predPerms := set.predPerms.insert place amount }

/-- Drain the access permissions, then the predicates. -/
def perms (order : IterOrder) (set : PermSet) : List Perm :=
  (order.iter 0 set.accPerms.entries).map
      (fun entry => Perm.acc entry.1 entry.2) ++
    (order.iter 1 set.predPerms.entries).map (fun entry => Perm.pred entry.1 entry.2)

end PermSet

/-- Set difference of permissions by place.  It does not panic if the left map
has less permission than the right one, but amounts that do not occur in
footprints are unreachable. -/
def placePermDifference (left right : HashMap Expr PermAmount) :
    Except Exn (HashMap Expr PermAmount) :=
  if right.entries.all fun entry =>
      match left.get? entry.1, entry.2 with
      | none, _ => true
      | some .read, .read | some .read, .write | some .write, .write => true
      | _, _ => false
  then .ok (left.retain fun place => !right.contains place)
  else .error .panic

/-- The amounts of the permissions of one kind. -/
def amountsOf (kind : Kind) (perms : List Perm) : HashMap Expr PermAmount :=
  HashMap.ofList ((perms.filter fun perm => perm.kind == kind).map fun perm =>
    (perm.getPlace, perm.getPermAmount))

def permDifference (left right : HashSet Perm) : Except Exn (HashSet Perm) := do
  let acc ← placePermDifference (amountsOf .acc left.keys) (amountsOf .acc right.keys)
  let pred ← placePermDifference (amountsOf .pred left.keys) (amountsOf .pred right.keys)
  pure (HashSet.ofList (acc.entries.map (fun entry => Perm.acc entry.1 entry.2)
    ++ pred.entries.map fun entry => Perm.pred entry.1 entry.2))

end Prusti.FoldUnfold

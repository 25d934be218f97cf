/-
Footprints: the permissions that are added or removed when an expression is
inhaled or exhaled, and those of the body of a predicate.
-/
import Prusti.FoldUnfold.State

namespace Prusti.FoldUnfold

open Prusti.Vir Prusti.Lib

/-- What the algorithm knows about the program: the definitions of the
predicates, and whether debug assertions are compiled in. -/
structure Env where
  predicates : String → Option Predicate
  debug : Bool

/-- A debug assertion. -/
def Env.debugAssert (env : Env) (condition : Bool) : Except Exn Unit :=
  assert (!env.debug || condition)

/-- The place of an instance in the footprint of a predicate. -/
def instantiate (selfPlace place : Expr) (perm : Perm) : Except Exn Perm :=
  orPanic (perm.mapPlace fun inner => inner.replacePlace selfPlace place)

/-- Instantiating a permission replaces `self` in its place. -/
theorem instantiate_eq_ok {selfPlace place : Expr} {generic perm : Perm}
    (h : instantiate selfPlace place generic = .ok perm) :
    ∃ substs, perm = generic.withPlace
      (Expr.foldReplace substs selfPlace place generic.getPlace).1 := by
  unfold instantiate Perm.mapPlace Expr.replacePlace at h
  rw [orPanic_eq_ok_iff, Option.map_eq_some_iff] at h
  obtain ⟨replaced, hreplaced, rfl⟩ := h
  rw [Option.map_eq_some_iff] at hreplaced
  obtain ⟨substs, _, rfl⟩ := hreplaced
  exact ⟨substs, rfl⟩

namespace EnumPredicate

/-- The intersection of the footprints of all variants. -/
def getUnderapproximatedBodyFootprint (predicate : EnumPredicate) : HashSet Perm :=
  HashSet.ofList [.acc predicate.discriminantLoc .write]

/-- The contribution of a given variant. -/
def getVariantFootprint (predicate : EnumPredicate)
    (variant : EnumVariantIndex) : Except Exn (HashSet Perm) := do
  let place ← orPanic ((Expr.ofLocal predicate.this).mkVariant variant.name)
  pure (HashSet.ofList [.acc place .write, .pred place .write])

/-- The permissions added or removed by folding or unfolding the enumeration
at a variant. -/
def getBodyFootprint (predicate : EnumPredicate)
    (variant : EnumVariantIndex) : Except Exn (HashSet Perm) := do
  let perms ← getVariantFootprint predicate variant
  pure (HashSet.union (getUnderapproximatedBodyFootprint predicate) perms)

end EnumPredicate

mutual

/-- The precise footprint of an expression. -/
def getFootprint (debug : Bool) (bodyFootprint : String → Option EnumVariantIndex →
      Except Exn (Expr × HashSet Perm)) : Expr → Except Exn (HashSet Perm)
  | .localVar _ _ | .field _ _ _ | .variant _ _ _ | .addrOf _ _ _
  | .labelledOld _ _ _ | .const _ _ | .funcApp _ _ _ _ _
  | .domainFuncApp _ _ _ | .inhaleExhale _ _ _ => pure HashMap.empty
  | .unfolding _ args expr permAmount variant _ => do
    let place ← match args with
      | [place] => pure place
      | _ => .error .panic
    assert (!debug || place.isPlace)
    let predicateName ← orPanic place.typedRefName
    let (selfPlace, footprint) ← bodyFootprint predicateName variant
    let placesInPred ← footprint.keys.mapM fun perm => do
      let perm ← instantiate selfPlace place perm
      orPanic (perm.initPermAmount permAmount)
    -- The unfolding is temporary: inhaled is what the body of the
    -- expression inhales beyond the unfolded permissions.
    let exprAccessPlaces ← getFootprint debug bodyFootprint expr
    permDifference exprAccessPlaces (HashSet.ofList placesInPred)
  | .unaryOp _ arg _ => getFootprint debug bodyFootprint arg
  | .binOp _ left right _ | .containerOp _ left right _ => do
    let left ← getFootprint debug bodyFootprint left
    let right ← getFootprint debug bodyFootprint right
    pure (HashSet.union left right)
  | .seq _ elems _ => getFootprints debug bodyFootprint elems
  | .cond guard thenExpr elseExpr _ => do
    let guard ← getFootprint debug bodyFootprint guard
    let left ← getFootprint debug bodyFootprint thenExpr
    let right ← getFootprint debug bodyFootprint elseExpr
    pure (HashSet.union (HashSet.union guard left) right)
  | .forAll vars _ body _ | .exist vars _ body _ => do
    assert (vars.all fun var => !var.typ.isRef)
    let footprint ← getFootprint debug bodyFootprint body
    permDifference footprint (HashSet.ofList (vars.map fun var =>
      Perm.acc (Expr.ofLocal var) .write))
  | .predicateAccessPredicate _ arg permAmount _ =>
    if arg.isPlace then
      match arg.getLabel with
      | none => pure (HashSet.ofList [.pred arg permAmount])
      | some label => pure (HashSet.ofList [.pred (arg.old label) permAmount])
    else pure HashMap.empty
  | .fieldAccessPredicate place permAmount _ => do
    assert (!debug || place.isPlace)
    assert (!debug || place.isCurr)
    pure (HashSet.ofList [.acc place permAmount])
  -- The resources of magic wands are not tracked.
  | .magicWand _ _ _ _ => pure HashMap.empty
  | .letExpr _ _ _ _ => .error .panic
  | .downcast base _ _ => getFootprint debug bodyFootprint base
  | .snapApp expr _ => getFootprint debug bodyFootprint expr

def getFootprints (debug : Bool)
    (bodyFootprint : String → Option EnumVariantIndex → Except Exn (Expr × HashSet Perm)) :
    List Expr → Except Exn (HashSet Perm)
  | [] => pure HashMap.empty
  | expr :: rest => do
    let first ← getFootprint debug bodyFootprint expr
    let others ← getFootprints debug bodyFootprint rest
    pure (HashSet.union first others)

end

/-- The footprint of the body of a structure's predicate.  A predicate body
does not contain unfolding expressions: the source looks predicates up in an
empty table. -/
def StructPredicate.getBodyFootprint (debug : Bool)
    (predicate : StructPredicate) : Except Exn (HashSet Perm) :=
  match predicate.body with
  | some body => getFootprint debug (fun _ _ => .error .panic) body
  | none => pure HashMap.empty

/-- The permissions added or removed by folding or unfolding a predicate.  For
an enumeration without a known variant this is an under-approximation; it is
precise in all other cases. -/
def Predicate.getBodyFootprint (debug : Bool) (predicate : Predicate)
    (maybeVariant : Option EnumVariantIndex) : Except Exn (HashSet Perm) :=
  match predicate with
  | .struct predicate => do
    assert maybeVariant.isNone
    StructPredicate.getBodyFootprint debug predicate
  | .enum predicate =>
    match maybeVariant with
    | some variant => EnumPredicate.getBodyFootprint predicate variant
    | none => pure (EnumPredicate.getUnderapproximatedBodyFootprint predicate)
  | .bodyless _ _ => pure HashMap.empty

/-- The footprint of an expression, with the predicates of the program. -/
def Env.getFootprint (env : Env) (expr : Expr) : Except Exn (HashSet Perm) :=
  FoldUnfold.getFootprint env.debug (fun name variant => do
      let predicate ← orPanic (env.predicates name)
      let footprint ← Predicate.getBodyFootprint env.debug predicate variant
      pure (predicate.selfPlace, footprint))
    expr

/-- The permissions in the body of a predicate, in the order in which they are
iterated, with `self` replaced by the place. -/
def placesInPred (env : Env) (order : IterOrder) (predicate : Predicate)
    (variant : Option EnumVariantIndex) (place : Expr) :
    Except Exn (List Perm) := do
  let footprint ← Predicate.getBodyFootprint env.debug predicate variant
  (order.iter 0 footprint.keys).mapM (instantiate predicate.selfPlace place)

end Prusti.FoldUnfold

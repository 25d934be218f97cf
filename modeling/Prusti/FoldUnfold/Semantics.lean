/-
The effect of statements on the permission state.
-/
import Prusti.Vir.Stmt
import Prusti.FoldUnfold.PathCtxt

namespace Prusti.FoldUnfold

open Prusti.Vir Prusti.Lib

/-- Inhale the footprint of an expression, except access permissions on local
variables. -/
def inhaleExpr (env : Env) (order : IterOrder) (expr : Expr)
    (state : State) : Except Exn State := do
  let footprint ← env.getFootprint expr
  state.insertAllPerms ((order.iter 0 footprint.keys).filter fun perm =>
    !(perm.isLocal && perm.isAcc))

/-- Exhale the footprint of an expression.  The permissions at the label `pre`
stay, for the final exhale of a method. -/
def exhaleExpr (env : Env) (order : IterOrder) (expr : Expr)
    (state : State) : Except Exn State := do
  let footprint ← env.getFootprint expr
  state.removeAllPerms ((order.iter 0 footprint.keys).filter fun perm =>
    (perm.isCurr || perm.isPred) && !(perm.isLocal && perm.isAcc) && !(perm.getLabel == some "pre"))

/-- Is the root of the place one of the targets? -/
def hasTargetBase (targets : List LocalVar) (place : Expr) : Bool :=
  place.getBase.elim false targets.contains

def applyMethodCall (targets : List LocalVar) (state : State) : State :=
  ((state.removeMovedMatching (hasTargetBase targets)).removePredMatching
    fun place => place.isCurr && hasTargetBase targets place).removeAccMatching
      fun place => place.isCurr && !place.isLocal && hasTargetBase targets place

/-- Move entries from below one place to below another one. -/
def replaceEntries (target replacement : Expr) (entries : List (Expr × PermAmount)) :
    Except Exn (List (Expr × PermAmount)) :=
  entries.mapM fun entry => do
    let place ← orPanic (entry.1.replacePlace target replacement)
    pure (place, entry.2)

/-- The access permissions that a place gets from another one. -/
def movedAccEntries (order : IterOrder) (state : State) (source target : Expr) :
    Except Exn (List (Expr × PermAmount)) := do
  let entries ← replaceEntries source target
    ((order.iter 0 state.acc.entries).filter fun entry =>
      entry.1.hasProperPrefix source)
  pure (entries.filter fun entry => !entry.1.isLocal)

/-- The predicates that a place gets from another one. -/
def movedPredEntries (order : IterOrder) (state : State)
    (source target : Expr) : Except Exn (List (Expr × PermAmount)) :=
  replaceEntries source target
    ((order.iter 1 state.pred.entries).filter fun entry =>
      entry.1.hasPrefix source)

/-- Lose the predicates at or below a place, and the access permissions below
it. -/
def losePermissions (place : Expr) (state : State) : State :=
  (state.removePredMatching fun other => other.hasPrefix place).removeAccMatching
    fun other => other.hasProperPrefix place && !other.isLocal

/-- An assignment that is not to a ghost variable. -/
def applyAssign (env : Env) (order : IterOrder) (lhs rhs : Expr)
    (kind : AssignKind) (original : State) : Except Exn State := do
  env.debugAssert lhs.isPlace
  if kind != .copy then do
    assert rhs.isPlace
    let typ ← orPanic rhs.getType
    assert typ.isRef
    if original.isPrefixOfSomeMoved rhs then
      throw (.error (.unsupported "two-phase borrows are not supported"))
    assert (rhs.allProperPrefixes.all fun pfx => !original.containsPred pfx)
  -- Remove places that will not have a name.
  let state := ((original.removeMovedMatching fun place =>
    place.hasPrefix lhs).removePredMatching fun place =>
      place.hasPrefix lhs).removeAccMatching fun place =>
        place.hasProperPrefix lhs
  let isRefPlace ←
    if rhs.isPlace then do
      let typ ← orPanic rhs.getType
      pure typ.isRef
    else pure false
  if isRefPlace then
    match kind with
    | .move | .mutableBorrow _ => do
      let state := losePermissions lhs (losePermissions rhs state)
      let newAccPlaces ← movedAccEntries order original rhs lhs
      let state ← state.insertAllAcc newAccPlaces
      let newPredPlaces ← movedPredEntries order original rhs lhs
      let state ← state.insertAllPred newPredPlaces
      pure (if rhs.hasPrefix lhs then state else state.insertMoved rhs)
    | .sharedBorrow _ => pure (losePermissions lhs state)
    | .ghost | .copy => .error .panic
  else do
    assert (kind == .copy)
    pure state

/-- The single place of a fold or unfold statement. -/
def singleArg : List Expr → Except Exn Expr
  | [place] => .ok place
  | _ => .error .panic

/-- The effect of a `fold` statement. -/
def applyFold (env : Env) (order : IterOrder) (args : List Expr)
    (permAmount : PermAmount) (variant : Option EnumVariantIndex)
    (state : State) : Except Exn State := do
  let place ← singleArg args
  env.debugAssert place.isPlace
  assert (!state.containsPred place)
  assert (!state.isPrefixOfSomeMoved place)
  let predicateName ← orPanic place.typedRefName
  let predicate ← orPanic (env.predicates predicateName)
  let places ← placesInPred env order predicate variant place
  let places ← places.mapM fun perm => orPanic (perm.initPermAmount permAmount)
  let state ← state.removeAllPerms places
  state.insertPred place permAmount

/-- The effect of an `unfold` statement.  The amounts of the footprint are
taken as they are. -/
def applyUnfold (env : Env) (order : IterOrder) (args : List Expr)
    (permAmount : PermAmount) (variant : Option EnumVariantIndex)
    (state : State) : Except Exn State := do
  let place ← singleArg args
  env.debugAssert place.isPlace
  assert (state.containsPred place)
  assert (!state.isPrefixOfSomeMoved place)
  let predicateName ← orPanic place.typedRefName
  let predicate ← orPanic (env.predicates predicateName)
  let places ← placesInPred env order predicate variant place
  assert (places.all fun perm => !state.containsPerm perm)
  let state ← state.removePred place permAmount
  state.insertAllPerms places

/-- Move the access permission of the left-hand side if the right-hand side is
old, and drop it if it was old itself. -/
def transferAcc (lhs rhs : Expr) (state : State) : Except Exn State := do
  let state ←
    if state.containsAcc lhs && !state.containsAcc rhs && rhs.isOld then do
      let amount ← orPanic (state.acc.get? lhs)
      let state ← state.insertAcc rhs amount
      if !lhs.isLocal && !lhs.isCurr then do
        let (state, _) ← state.removeAccPlace lhs
        pure state
      else pure state
    else pure state
  if state.containsAcc lhs && lhs.isOld then do
    let (state, _) ← state.removeAccPlace lhs
    pure state
  else pure state

/-- The effect of restoring the permissions of an expired borrow. -/
def applyTransferPerm (env : Env) (order : IterOrder) (lhs rhs : Expr)
    (unchecked : Bool) (original : State) : Except Exn State := do
  env.debugAssert (!lhs.isSimplePlace || original.isPrefixOfSomeAcc lhs ||
    original.isPrefixOfSomePred lhs)
  if env.debug then do
    let lhsType ← orPanic lhs.getType
    let rhsType ← orPanic rhs.getType
    assert (lhsType.isRef && rhsType.isRef && lhsType == rhsType)
  let state := losePermissions rhs (losePermissions lhs original)
  let state := state.removeMovedMatching fun place => place.hasPrefix rhs
  let rhsType ← orPanic rhs.getType
  let rhsIsArray := "Array$".toList.isPrefixOf rhsType.name.toList
  -- All permissions of an array are on its predicate.
  let newAccPlaces ←
    if rhsIsArray then pure []
    else movedAccEntries order original lhs rhs
  let newPredPlaces ←
    if rhsIsArray then pure [(rhs, PermAmount.write)]
    else movedPredEntries order original lhs rhs
  let state ← state.insertAllAcc newAccPlaces
  let state ← state.insertAllPred newPredPlaces
  let state ← transferAcc lhs rhs state
  pure (if !lhs.hasPrefix rhs && !unchecked then state.insertMoved lhs
    else state)

/-- The effect of a downcast: the permissions of the variant are added once
the discriminant is there. -/
def applyDowncast (env : Env) (order : IterOrder) (enumPlace : Expr)
    (variantField : Field) (state : State) : Except Exn State := do
  match ← findUnfoldedVariant env (order.call 0) state enumPlace with
  | some foundVariant => do
    env.debugAssert (foundVariant.name.toList.isSuffixOf variantField.name.toList)
    pure state
  | none => do
    let predicateName ← orPanic enumPlace.typedRefName
    let predicate ← orPanic (env.predicates predicateName)
    match predicate with
    | .enum predicate =>
      match state.acc.get? (enumPlace.mkField predicate.discriminantField)
      with
      | some permAmount => do
        let variant ← orPanic variantField.toVariantIndex
        let footprint ← EnumPredicate.getVariantFootprint predicate variant
        let perms ← (order.iter 1 footprint.keys).mapM fun perm => do
          let perm ← orPanic (perm.updatePermAmount permAmount)
          instantiate (Expr.ofLocal predicate.this) enumPlace perm
        state.insertAllPerms perms
      | none => pure state
    | _ => .error .panic

/-- The effect of a statement on the permission state. -/
def applyOnState (env : Env) (order : IterOrder) (stmt : Stmt) (state : State) : Except Exn State :=
  match stmt with
  | .comment _ | .label _ | .assert _ _ | .obtain _ _ => pure state
  | .inhale expr => inhaleExpr env order expr state
  | .exhale expr _ => exhaleExpr env order expr state
  -- The pre- and postconditions of methods are empty.
  | .methodCall _ _ targets => pure (applyMethodCall targets state)
  | .assign _ _ .ghost => pure state
  | .assign lhs rhs kind => applyAssign env order lhs rhs kind state
  | .fold _ args permAmount variant _ =>
    applyFold env order args permAmount variant state
  | .unfold _ args permAmount variant =>
    applyUnfold env order args permAmount variant state
  | .beginFrame => pure state.beginFrame
  | .endFrame => state.endFrame order
  | .transferPerm lhs rhs unchecked =>
    applyTransferPerm env order lhs rhs unchecked state
  | .packageMagicWand (.magicWand lhs rhs _ _) _ _ _ _ => do
    let state ← exhaleExpr env (order.call 0) rhs state
    inhaleExpr env (order.call 1) lhs state
  | .applyMagicWand (.magicWand lhs rhs _ _) _ => do
    let state ← exhaleExpr env (order.call 0) lhs state
    inhaleExpr env (order.call 1) rhs state
  | .expireBorrows _ => pure state
  | .downcast enumPlace variantField =>
    applyDowncast env order enumPlace variantField state
  | .packageMagicWand _ _ _ _ _ | .applyMagicWand _ _ | .ite _ _ _ =>
    .error .panic

end Prusti.FoldUnfold

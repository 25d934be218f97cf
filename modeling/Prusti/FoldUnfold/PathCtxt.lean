/-
The path context: obtaining a permission by unfolding a predicate above it or
by folding its own predicate.  The functions change a state and collect the
fold and unfold actions to be emitted.
-/
import Prusti.FoldUnfold.Footprint

namespace Prusti.FoldUnfold

open Prusti.Vir Prusti.Lib

inductive Action where
  | fold (name : String) (args : List Expr) (permAmount : PermAmount)
      (variant : Option EnumVariantIndex) (pos : Position)
  | unfold (name : String) (args : List Expr) (permAmount : PermAmount)
      (variant : Option EnumVariantIndex)
  /-- The dropped permission and the missing permission that caused it. -/
  | drop (perm missing : Perm)
deriving Repr

/-- Either a list of actions, or the permission that was missing. -/
inductive ObtainResult where
  | success (actions : List Action)
  | failure (perm : Perm)
deriving Repr

def ObtainResult.getActions : ObtainResult → Except Exn (List Action)
  | success actions => .ok actions
  | failure perm => .error (.error (.failedToObtain perm))

/-- Find in `variantPlace` the variant index of the enum encoded by
`enumPlace`. -/
def findVariant (enumPlace : Expr) : Expr → Except Exn (Option EnumVariantIndex)
  | .variant base index _ =>
    if enumPlace == base then orPanic (index.toVariantIndex.map some)
    else findVariant enumPlace base
  | .field base _ _ | .addrOf base _ _ =>
    if enumPlace == base then pure none else findVariant enumPlace base
  | _ => .error .panic

/-- The variants to which the access permissions say that the enum has been
downcast. -/
def unfoldedVariants (state : State) (enumPlace : Expr) :
    Except Exn (HashSet EnumVariantIndex) := do
  let variants ← (state.accPlaces.filter fun place =>
    place.hasProperPrefix enumPlace && place.isVariant).mapM (findVariant enumPlace)
  pure (HashSet.ofList (variants.filterMap id))

/-- Find the variant of an enum place that is unfolded and downcast. -/
def findUnfoldedVariant (env : Env) (order : IterOrder) (state : State)
    (enumPlace : Expr) : Except Exn (Option EnumVariantIndex) := do
  env.debugAssert enumPlace.isPlace
  let variants ← unfoldedVariants state enumPlace
  env.debugAssert (variants.keys.length ≤ 1)
  pure (order.iter 0 variants.keys).head?

/-- Look a predicate up; a missing one is an error. -/
def Env.getPredicate (env : Env) (name : String) : Except Exn Predicate :=
  match env.predicates name with
  | some predicate => .ok predicate
  | none => .error (.error (.missingPredicate name))

/-- Simulate an unfold. -/
def unfold (env : Env) (order : IterOrder) (state : State) (predPlace : Expr)
    (permAmount : PermAmount) (variant : Option EnumVariantIndex) :
    Except Exn (State × Action) := do
  assert (state.containsPred predPlace)
  assert permAmount.isValidForSpecs
  let predicateName ← orPanic predPlace.typedRefName
  let predicate ← env.getPredicate predicateName
  let places ← placesInPred env order predicate variant predPlace
  let scaled ← places.mapM fun perm => orPanic (perm.updatePermAmount permAmount)
  let state ← state.removePred predPlace permAmount
  let state ← state.insertAllPerms scaled
  pure (state, .unfold predicateName [predPlace] permAmount variant)

/-- The smallest amount of a sequence, `write` if it is empty. -/
def minAmount (amounts : List PermAmount) : Except Exn PermAmount := do
  let smallest ← orPanic (PermAmount.min? amounts)
  pure (smallest.getD .write)

/-- The amount that the state can offer for a permission of the body. -/
def offeredAmount (state : State) (perm : Perm) : Except Exn PermAmount :=
  minAmount (((state.acc.entries ++ state.pred.entries).filter fun entry =>
    entry.1.hasPrefix perm.getPlace).map Prod.snd)

/-- The amount with which a predicate can be folded. -/
def foldAmount (state : State) (places : List Perm) : Except Exn PermAmount := do
  let amounts ← places.mapM (offeredAmount state)
  minAmount amounts

/-- Obtain permissions one after the other, up to the first failure. -/
def obtainEach (obtain : IterOrder → State → Perm → Except Exn (State × ObtainResult)) :
    IterOrder → State → List Perm → Except Exn (State × ObtainResult)
  | _, state, [] => pure (state, .success [])
  | order, state, perm :: rest => do
    let (state, result) ← obtain (order.call 0) state perm
    match result with
    | .failure missing => pure (state, .failure missing)
    | .success actions => do
      let (state, result) ← obtainEach obtain (order.call 1) state rest
      match result with
      | .failure missing => pure (state, .failure missing)
      | .success newActions => pure (state, .success (actions ++ newActions))

/-- Is there something that would make a fold possible?  Without this test the
search for the predicates in the body could recurse forever. -/
def canFold (state : State) (predicate : Predicate) (place : Expr) (places : List Perm) : Bool :=
  state.isProperPrefixOfSomeAcc place || (places.isEmpty && !predicate.isAbstract)

/-- Simulate folding, once the permissions of the body are there. -/
def foldPlace (env : Env) (state : State) (place : Expr)
    (permAmount : PermAmount) (places : List Perm) : Except Exn State := do
  let scaled ← places.mapM fun perm => orPanic (perm.updatePermAmount permAmount)
  env.debugAssert (state.containsAllPerms scaled)
  env.debugAssert (!place.isSimplePlace || state.containsAcc place)
  env.debugAssert (!state.containsPred place)
  let state ← state.removeAllPerms scaled
  state.insertPred place permAmount

/-- Obtain a predicate with a fold. -/
def obtainFold (env : Env) (obtain : IterOrder → State → Perm → Except Exn (State × ObtainResult))
    (order : IterOrder) (state : State) (req : Perm) :
    Except Exn (State × ObtainResult) := do
  let predicateName ← orPanic req.typedRefName
  let predicate ← orPanic (env.predicates predicateName)
  let variant ← findUnfoldedVariant env (order.call 0) state req.getPlace
  let places ← placesInPred env (order.call 1) predicate variant req.getPlace
  if canFold state predicate req.getPlace places then do
    let permAmount ← foldAmount state places
    let (state, result) ← obtainEach obtain (order.call 2) state
      (places.map fun perm => perm.setDefaultPos req.getPlace.pos)
    match result with
    | .failure missing => pure (state, .failure missing)
    | .success actions => do
      let state ← foldPlace env state req.getPlace permAmount places
      pure (state, .success (actions ++ [.fold predicateName [req.getPlace]
        permAmount variant req.getPlace.pos]))
  else pure (state, .failure req)

/-- The predicate on a proper prefix that is to be unfolded. -/
def prefixPred (order : IterOrder) (state : State) (req : Perm) : Option Expr :=
  (order.iter 0 state.predPlaces).find? req.hasProperPrefix

/-- Obtain the required permission.  The source distinguishes requests made in
a join only in what it logs. -/
def obtain (env : Env) : Nat → IterOrder → State → Perm → Except Exn (State × ObtainResult)
  | 0, _, _, _ => .error .outOfFuel
  | fuel + 1, order, state, req =>
    if state.containsPerm req then pure (state, .success [])
    -- Access permissions on local variables are always satisfied.
    else if req.isAcc && req.isLocal then pure (state, .success [])
    else
      match prefixPred order state req with
      | some existing => do
        let permAmount ← orPanic (state.pred.get? existing)
        assert (permAmount.ge req.getPermAmount)
        let variant ← findVariant existing req.getPlace
        let (state, action) ← unfold env (order.call 0) state existing permAmount variant
        let (state, result) ← obtain env fuel (order.call 1) state req
        let newActions ← result.getActions
        pure (state, .success (action :: newActions))
      | none =>
        if req.isPred then
          obtainFold env (obtain env fuel) (order.call 2) state req
        else pure (state, .failure req)

/-- Obtain all permissions, collecting the actions. -/
def obtainAll (env : Env) (fuel : Nat) :
    IterOrder → State → List Perm → Except Exn (State × List Action)
  | _, state, [] => pure (state, [])
  | order, state, perm :: rest => do
    let (state, result) ← obtain env fuel (order.call 0) state perm
    let actions ← result.getActions
    let (state, newActions) ← obtainAll env fuel (order.call 1) state rest
    pure (state, actions ++ newActions)

/-- Drop the requirements below a required predicate: they can be obtained
with an unfolding expression. -/
def solveConflicts (perms : List Perm) : List Perm :=
  perms.filter fun perm =>
    !perms.any fun other =>
      other.isPred && perm.hasProperPrefix other.getPlace

def obtainPermissions (env : Env) (fuel : Nat) (order : IterOrder)
    (state : State) (permissions : List Perm) :
    Except Exn (State × List Action) := do
  env.debugAssert state.checkConsistency
  let (state, actions) ← obtainAll env fuel order state (solveConflicts permissions)
  env.debugAssert state.checkConsistency
  pure (state, actions)

end Prusti.FoldUnfold

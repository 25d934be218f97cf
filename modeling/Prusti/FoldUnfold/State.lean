/-
The permission state of the fold-unfold algorithm: the places with an access
permission, the places with a predicate permission, and the moved-out places.
-/
import Prusti.FoldUnfold.Perm

namespace Prusti.FoldUnfold

open Prusti.Vir Prusti.Lib

structure State where
  /-- Paths on which we (may) have an access permission. -/
  acc : HashMap Expr PermAmount
  /-- Paths on which we (may) have a predicate permission. -/
  pred : HashMap Expr PermAmount
  /-- Paths that have been moved out (for sure). -/
  moved : HashSet Expr
  /-- Permissions currently framed, the innermost frame first. -/
  framingStack : List PermSet

/-- Add an amount at a place.  Adding to an amount that is already there has
to give `read` or `write`. -/
def insertAmount (map : HashMap Expr PermAmount) (place : Expr)
    (perm : PermAmount) : Except Exn (HashMap Expr PermAmount) :=
  match map.get? place with
  | some old => do
    let newPerm ← PermAmount.addE old perm
    assert (newPerm == .write || newPerm == .read)
    pure (map.insert place newPerm)
  | none => pure (map.insert place perm)

/-- Take an amount from a place; the last argument is what happens if there is
nothing to take from. -/
def removeAmount (map : HashMap Expr PermAmount) (place : Expr)
    (perm : PermAmount) (missing : Exn) :
    Except Exn (HashMap Expr PermAmount) :=
  match map.get? place with
  | some old =>
    if old == perm then pure (map.erase place)
    else do
      let newPerm ← PermAmount.subE old perm
      pure (map.insert place newPerm)
  | none => .error missing

namespace State

def new (acc pred : HashMap Expr PermAmount) (moved : HashSet Expr) : State :=
  { acc, pred, moved, framingStack := [] }

/-- The map of a kind of permissions. -/
def held (state : State) : Kind → HashMap Expr PermAmount
  | .acc => state.acc
  | .pred => state.pred

/-- Replace the map of a kind of permissions. -/
def setHeld (state : State) : Kind → HashMap Expr PermAmount → State
  | .acc, map => { state with acc := map }
  | .pred, map => { state with pred := map }

def accPlaces (state : State) : List Expr := state.acc.keys

def predPlaces (state : State) : List Expr := state.pred.keys

def containsAcc (state : State) (place : Expr) : Bool := state.acc.contains place

def containsPred (state : State) (place : Expr) : Bool := state.pred.contains place

/-- The permission amount is ignored. -/
def containsPerm (state : State) : Perm → Bool
  | .acc place _ => state.containsAcc place
  | .pred place _ => state.containsPred place

def containsAllPerms (state : State) (items : List Perm) : Bool := items.all state.containsPerm

def isProperPrefixOfSomeAcc (state : State) (pfx : Expr) : Bool :=
  state.accPlaces.any fun place => place.hasProperPrefix pfx

def isPrefixOfSomeAcc (state : State) (pfx : Expr) : Bool :=
  state.accPlaces.any fun place => place.hasPrefix pfx

def isPrefixOfSomePred (state : State) (pfx : Expr) : Bool :=
  state.predPlaces.any fun place => place.hasPrefix pfx

def isPrefixOfSomeMoved (state : State) (pfx : Expr) : Bool :=
  state.moved.keys.any fun place => place.hasPrefix pfx

def removeAccMatching (state : State) (matching : Expr → Bool) : State :=
  { state with acc := state.acc.retain fun place => !matching place }

def removePredMatching (state : State) (matching : Expr → Bool) : State :=
  { state with pred := state.pred.retain fun place => !matching place }

def removeMovedMatching (state : State) (matching : Expr → Bool) : State :=
  { state with moved := state.moved.retain fun place => !matching place }

def insertAcc (state : State) (place : Expr) (perm : PermAmount) : Except Exn State := do
  let acc ← insertAmount state.acc place perm
  pure { state with acc }

def insertPred (state : State) (place : Expr) (perm : PermAmount) : Except Exn State := do
  let pred ← insertAmount state.pred place perm
  pure { state with pred }

def insertMoved (state : State) (place : Expr) : State :=
  { state with moved := HashSet.insert state.moved place }

def insertPerm (state : State) : Perm → Except Exn State
  | .acc place perm => state.insertAcc place perm
  | .pred place perm => state.insertPred place perm

def insertAllPerms (state : State) (items : List Perm) : Except Exn State :=
  items.foldlM insertPerm state

def insertAllAcc (state : State) (items : List (Expr × PermAmount)) : Except Exn State :=
  items.foldlM (fun state item => state.insertAcc item.1 item.2) state

def insertAllPred (state : State) (items : List (Expr × PermAmount)) : Except Exn State :=
  items.foldlM (fun state item => state.insertPred item.1 item.2) state

/-- A missing access permission is a panic. -/
def removeAcc (state : State) (place : Expr) (perm : PermAmount) : Except Exn State := do
  let acc ← removeAmount state.acc place perm .panic
  pure { state with acc }

/-- A missing predicate permission is an error. -/
def removePred (state : State) (place : Expr) (perm : PermAmount) : Except Exn State := do
  let pred ← removeAmount state.pred place perm (.error (.failedToRemovePred place))
  pure { state with pred }

def removeAccPlace (state : State) (place : Expr) : Except Exn (State × PermAmount) := do
  let amount ← orPanic (state.acc.get? place)
  pure ({ state with acc := state.acc.erase place }, amount)

def removePerm (state : State) : Perm → Except Exn State
  | .acc place perm => state.removeAcc place perm
  | .pred place perm => state.removePred place perm

def removeAllPerms (state : State) (items : List Perm) : Except Exn State :=
  items.foldlM removePerm state

/-- Every predicate has its access permission, or is folded into its parent,
or is held in part or through a reference. -/
def checkPredAcc (state : State) : Bool :=
  state.pred.entries.all fun (place, amount) =>
    !place.isSimplePlace || state.containsAcc place ||
      (place.getParent.elim false state.containsPred) ||
      amount == .remaining || amount == .read || place.isMirReference

/-- Every access permission has the one of its parent, unless it is a `read`
permission two steps below a local variable. -/
def checkAccParent (state : State) : Bool :=
  state.acc.entries.all fun (place, amount) =>
    !place.isSimplePlace || place.isLocal ||
      match place.getParent with
      | none => false
      | some parent => state.containsAcc parent ||
          (amount == .read && parent.getParent.elim false Expr.isLocal)

/-- No two predicates are nested, unless both are held in part. -/
def checkPredPred (state : State) : Bool :=
  state.pred.entries.all fun (place, amount) =>
    state.pred.entries.all fun (otherPlace, otherAmount) =>
      !(place.isSimplePlace && otherPlace.isSimplePlace &&
          place.hasProperPrefix otherPlace) ||
        ((amount == .read || amount == .remaining) && otherAmount == .read)

/-- No access permission lies below a predicate. -/
def checkAccPred (state : State) : Bool :=
  state.accPlaces.all fun accPlace =>
    state.predPlaces.all fun predPlace =>
      !(accPlace.isSimplePlace && predPlace.isSimplePlace && accPlace.hasProperPrefix predPlace)

/-- No access permission lies below a moved place. -/
def checkAccMoved (state : State) : Bool :=
  state.accPlaces.all fun accPlace =>
    state.moved.keys.all fun movedPlace =>
      !(movedPlace.isSimplePlace && accPlace.isSimplePlace && accPlace.hasProperPrefix movedPlace)

/-- No predicate is on the way up or down from a moved place. -/
def checkPredMoved (state : State) : Bool :=
  state.predPlaces.all fun predPlace =>
    state.moved.keys.all fun movedPlace =>
      !(movedPlace.isSimplePlace && predPlace.isSimplePlace &&
        (predPlace.hasPrefix movedPlace || movedPlace.hasPrefix predPlace))

/-- The consistency check; `false` stands for a panic. -/
def checkConsistency (state : State) : Bool :=
  state.checkPredAcc && state.checkAccParent && state.checkPredPred &&
    state.checkAccPred && state.checkAccMoved && state.checkPredMoved

/-- Frame all permissions except those on local variables. -/
def beginFrame (state : State) : State :=
  let framed := (state.acc.entries.filter fun entry => !entry.1.isLocal).foldl
    (fun set entry => set.add (.acc entry.1 entry.2)) PermSet.empty
  let framed := state.pred.entries.foldl (fun set entry => set.add (.pred entry.1 entry.2)) framed
  { state with
    acc := state.acc.retain Expr.isLocal
    pred := HashMap.empty
    framingStack := framed :: state.framingStack }

/-- Restore the permissions of the innermost frame. -/
def endFrame (order : IterOrder) (state : State) : Except Exn State :=
  match state.framingStack with
  | [] => .error .panic
  | framed :: rest =>
    insertAllPerms { state with framingStack := rest } (framed.perms order)

end State

@[simp] theorem State.held_setHeld (state : State) (kind : Kind) (map : HashMap Expr PermAmount) :
    (state.setHeld kind map).held kind = map := by
  cases kind <;> rfl

theorem State.held_setHeld_of_ne (state : State) {kind other : Kind}
    (map : HashMap Expr PermAmount) (hne : kind ≠ other) :
    (state.setHeld kind map).held other = state.held other := by
  cases kind <;> cases other <;> first | rfl | exact absurd rfl hne

/-- An insertion of a permission is an insertion into the map of its kind. -/
theorem State.insertPerm_eq_ok_iff {state state' : State} {perm : Perm} :
    state.insertPerm perm = .ok state' ↔ ∃ map, insertAmount (state.held perm.kind) perm.getPlace
          perm.getPermAmount = .ok map ∧
        state' = state.setHeld perm.kind map := by
  cases perm with
  | acc place amount =>
    change (insertAmount state.acc place amount >>= _) = _ ↔ _
    rw [bind_eq_ok_iff]
    exact exists_congr fun map => and_congr_right fun _ =>
      ⟨fun h => by cases h; rfl, fun h => by cases h; rfl⟩
  | pred place amount =>
    change (insertAmount state.pred place amount >>= _) = _ ↔ _
    rw [bind_eq_ok_iff]
    exact exists_congr fun map => and_congr_right fun _ =>
      ⟨fun h => by cases h; rfl, fun h => by cases h; rfl⟩

theorem State.removePerm_eq_ok {state state' : State} {perm : Perm}
    (h : state.removePerm perm = .ok state') :
    ∃ map missing, removeAmount (state.held perm.kind) perm.getPlace
        perm.getPermAmount missing = .ok map ∧
      state' = state.setHeld perm.kind map := by
  cases perm with
  | acc place amount =>
    change (removeAmount state.acc place amount _ >>= _) = _ at h
    rw [bind_eq_ok_iff] at h
    obtain ⟨map, hmap, hpure⟩ := h
    cases hpure
    exact ⟨map, _, hmap, rfl⟩
  | pred place amount =>
    change (removeAmount state.pred place amount _ >>= _) = _ at h
    rw [bind_eq_ok_iff] at h
    obtain ⟨map, hmap, hpure⟩ := h
    cases hpure
    exact ⟨map, _, hmap, rfl⟩

@[simp] theorem State.framingStack_setHeld (state : State) (kind : Kind)
    (map : HashMap Expr PermAmount) :
    (state.setHeld kind map).framingStack = state.framingStack := by
  cases kind <;> rfl

end Prusti.FoldUnfold

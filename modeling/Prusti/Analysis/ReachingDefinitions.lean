/-
The abstract domain of the definitions that may reach a program point, as a map from
locals to sets of definition sites.
-/
import Mathlib.Data.Finmap
import Prusti.Analysis.Analyzer

namespace Prusti.Analysis

open Prusti.Mir

universe u

/-- A parameter is named by its index among the arguments. -/
inductive DefLocation where
  | assignment (location : Location)
  | parameter (index : Nat)
deriving DecidableEq, Repr

abbrev ReachingDefs := Finmap fun _ : Local => Finset DefLocation

namespace ReachingDefsState

/-- The set of a local, empty when there is no entry for it. -/
def defsOf (defs : ReachingDefs) (root : Local) : Finset DefLocation := (defs.lookup root).getD ∅

/-- Add sites to the set of a local. -/
def extendDefs (defs : ReachingDefs) (root : Local) (sites : Finset DefLocation) : ReachingDefs :=
  defs.insert root (defsOf defs root ∪ sites)

/-- Clear the set of a local and add an assignment to it. -/
def replaceDefs (defs : ReachingDefs) (root : Local) (location : Location) : ReachingDefs :=
  defs.insert root {.assignment location}

theorem defsOf_insert (defs : ReachingDefs) (root root' : Local) (sites : Finset DefLocation) :
    defsOf (defs.insert root sites) root' = if root' = root then sites else defsOf defs root' := by
  by_cases heq : root' = root
  · subst heq
    rw [if_pos rfl, defsOf, Finmap.lookup_insert, Option.getD_some]
  · rw [if_neg heq, defsOf, Finmap.lookup_insert_of_ne defs heq, defsOf]

theorem extendDefs_comm (defs : ReachingDefs) (root : Local) (sites : Finset DefLocation)
    (root' : Local) (sites' : Finset DefLocation) :
    extendDefs (extendDefs defs root sites) root' sites' =
      extendDefs (extendDefs defs root' sites') root sites := by
  by_cases heq : root = root'
  · subst heq
    simp only [extendDefs, defsOf_insert, ↓reduceIte, Finmap.insert_insert]
    rw [Finset.union_right_comm]
  · simp only [extendDefs, defsOf_insert, if_neg heq, if_neg (Ne.symm heq)]
    rw [Finmap.insert_insert_of_ne _ heq]

/-- No definition reaches the bottom element. -/
def newBottom : ReachingDefs := ∅

def newInitial {Ty : Type u} (body : Body Ty) : ReachingDefs :=
  body.argsIter.zipIdx.foldl
    (fun defs argument => extendDefs defs argument.1 {.parameter argument.2}) ∅

/-- Add the sets of the other map. -/
def join (defs other : ReachingDefs) : ReachingDefs := other.foldl extendDefs extendDefs_comm defs

/-- An assignment to a whole local, if it is one. -/
def assignDefs (defs : ReachingDefs) (target : Option Local) (location : Location) : ReachingDefs :=
  match target with
  | some root => replaceDefs defs root location
  | none => defs

/-- An assignment to a whole local that possibly took place. -/
def mayAssignDefs (defs : ReachingDefs) (target : Option Local) (location : Location) :
    ReachingDefs :=
  match target with
  | some root => extendDefs defs root {.assignment location}
  | none => defs

section Effects

variable {Ty : Type u} (body : Body Ty)

def applyStatementEffect (location : Location) (defs : ReachingDefs) : Outcome ReachingDefs :=
  match (body.statements location.block)[location.statementIndex]? with
  | some (.assign target _) => pure (assignDefs defs target.asLocal location)
  | some _ => pure defs
  | none => .error .panic

/-- The states for the successors.  On the error edge of a call its destination is
possibly assigned. -/
def applyTerminatorEffect (location : Location) (defs : ReachingDefs) :
    Outcome (List (BasicBlock × ReachingDefs)) :=
  match body.terminator? location.block with
  | some (.call _ _ destination cleanup) =>
    let returned := destination.toList.map fun (place, bb) =>
      (bb, assignDefs defs place.asLocal location)
    let failed := cleanup.toList.map fun bb =>
      (bb, mayAssignDefs defs (destination.bind fun (place, _) => place.asLocal) location)
    pure (returned ++ failed)
  | some (.inlineAsm _) => .error (.error (.unsupportedStatement location))
  | some kind => pure (kind.successors.map fun bb => (bb, defs))
  | none => .error .panic

/-- The domain never widens, and cannot. -/
def abstractState : AbstractState ReachingDefs where
  newBottom := newBottom
  newInitial := newInitial body
  needToWiden := fun _ => false
  join := join
  widen := fun _ _ => .error .panic
  applyStatementEffect := applyStatementEffect body
  applyTerminatorEffect := applyTerminatorEffect body

end Effects

end ReachingDefsState

end Prusti.Analysis

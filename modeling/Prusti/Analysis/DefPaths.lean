/-
The paths of the control-flow graph from a definition of a local along which no other
assignment to the whole local redefines it.
-/
import Prusti.Analysis.ReachingDefinitions

namespace Prusti.Analysis

open Prusti.Mir

universe u

/-- A point of a body: before a location, or on the edges between two blocks. -/
inductive Point where
  | before (location : Location)
  | onEdge (source target : BasicBlock)
deriving DecidableEq, Repr

section Edges

variable {Ty : Type u}

/-- The local that a statement assigns as a whole. -/
def assignedLocal : StatementKind Ty → Option Local
  | .assign target _ => target.asLocal
  | _ => none

/-- An edge of a terminator, with the local that the terminator assigns as a whole, and
whether it is assigned for certain when the edge is taken. -/
structure DefEdge where
  target : BasicBlock
  assigned : Option Local
  certain : Bool
deriving DecidableEq, Repr

/-- The edges of a terminator.  Only calls assign locals: for certain on the return edge,
and on the error edge as the parameter says. -/
def defEdges (certainOnError : Bool) : TerminatorKind Ty → List DefEdge
  | .call _ _ destination cleanup =>
    let returned := destination.toList.map fun (place, bb) =>
      (⟨bb, place.asLocal, true⟩ : DefEdge)
    let failed := cleanup.toList.map fun bb =>
      (⟨bb, destination.bind fun (place, _) => place.asLocal, certainOnError⟩ : DefEdge)
    returned ++ failed
  | kind => kind.successors.map fun bb => ⟨bb, none, false⟩

theorem target_mem_successors {certainOnError : Bool} {kind : TerminatorKind Ty}
    {edge : DefEdge} (h : edge ∈ defEdges certainOnError kind) :
    edge.target ∈ kind.successors := by
  cases kind with
  | call func args destination cleanup =>
    rcases List.mem_append.mp h with h | h
    · obtain ⟨dest, hdest, rfl⟩ := List.mem_map.mp h
      refine List.mem_append_left _ ?_
      rw [Option.mem_toList] at hdest ⊢
      exact Option.mem_map_of_mem Prod.snd hdest
    · obtain ⟨bb, hbb, rfl⟩ := List.mem_map.mp h
      exact List.mem_append_right _ hbb
  | _ =>
    obtain ⟨bb, hbb, rfl⟩ := List.mem_map.mp h
    exact hbb

theorem exists_defEdge (certainOnError : Bool) {kind : TerminatorKind Ty} {next : BasicBlock}
    (h : next ∈ kind.successors) : ∃ edge ∈ defEdges certainOnError kind, edge.target = next := by
  cases kind with
  | call func args destination cleanup =>
    rcases List.mem_append.mp h with h | h
    · rw [Option.mem_toList] at h
      obtain ⟨dest, rfl, rfl⟩ := Option.map_eq_some_iff.mp h
      exact ⟨_, List.mem_append_left _ (List.mem_singleton.mpr rfl), rfl⟩
    · exact ⟨_, List.mem_append_right _ (List.mem_map.mpr ⟨next, h, rfl⟩), rfl⟩
  | _ => exact ⟨_, List.mem_map.mpr ⟨next, h, rfl⟩, rfl⟩

end Edges

/-- There is a path from a definition of a local to a point along which no other
assignment to the whole local, and no call that assigns it for certain, redefines it. -/
inductive DefReaches {Ty : Type u} (body : Body Ty) (certainOnError : Bool) (root : Local) :
    DefLocation → Point → Prop where
  | parameter {idx : Nat} (harg : body.argsIter[idx]? = some root) :
      DefReaches body certainOnError root (.parameter idx) (.before ⟨startBlock, 0⟩)
  | assignment {bb : BasicBlock} {idx : Nat} {statement : StatementKind Ty}
      (hstatement : (body.statements bb)[idx]? = some statement)
      (hassigned : assignedLocal statement = some root) :
      DefReaches body certainOnError root (.assignment ⟨bb, idx⟩) (.before ⟨bb, idx + 1⟩)
  | destination {bb : BasicBlock} {kind : TerminatorKind Ty} {edge : DefEdge}
      (hkind : body.terminator? bb = some kind) (hedge : edge ∈ defEdges certainOnError kind)
      (hassigned : edge.assigned = some root) :
      DefReaches body certainOnError root (.assignment (body.terminatorLoc bb))
        (.onEdge bb edge.target)
  | statement {site : DefLocation} {bb : BasicBlock} {idx : Nat} {statement : StatementKind Ty}
      (h : DefReaches body certainOnError root site (.before ⟨bb, idx⟩))
      (hstatement : (body.statements bb)[idx]? = some statement)
      (hkept : assignedLocal statement ≠ some root) :
      DefReaches body certainOnError root site (.before ⟨bb, idx + 1⟩)
  | terminator {site : DefLocation} {bb : BasicBlock} {kind : TerminatorKind Ty} {edge : DefEdge}
      (h : DefReaches body certainOnError root site (.before (body.terminatorLoc bb)))
      (hkind : body.terminator? bb = some kind) (hedge : edge ∈ defEdges certainOnError kind)
      (hkept : edge.certain = true → edge.assigned ≠ some root) :
      DefReaches body certainOnError root site (.onEdge bb edge.target)
  | edge {site : DefLocation} {source target : BasicBlock}
      (h : DefReaches body certainOnError root site (.onEdge source target)) :
      DefReaches body certainOnError root site (.before ⟨target, 0⟩)

section Paths

variable {Ty : Type u} {body : Body Ty} {certainOnError : Bool} {root : Local}
  {site : DefLocation}

/-- An edge on a path is an edge of the body. -/
theorem DefReaches.mem_successors {source target : BasicBlock}
    (h : DefReaches body certainOnError root site (.onEdge source target)) :
    target ∈ body.successors source := by
  cases h with
  | destination hkind hedge _ | terminator _ hkind hedge _ =>
    rw [Body.successors_eq hkind]
    exact target_mem_successors hedge

end Paths

end Prusti.Analysis

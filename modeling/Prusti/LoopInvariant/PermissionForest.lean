/-
The permissions of a loop invariant, as trees of places with a kind of permission at each
node.  `none` stands for a failed assertion and for code that is not reachable.
-/
import Prusti.LoopInvariant.AccessLeaves
import Prusti.LoopInvariant.PlaceSet

namespace Prusti.LoopInvariant

open Prusti.Mir Prusti.Analysis

universe u

inductive PermissionKind where
  /-- Gives read permission to this node.  It must not be a leaf node. -/
  | readNode
  /-- Gives read permission to the entire subtree including this node. -/
  | readSubtree
  /-- Gives write permission to this node.  It must not be a leaf node. -/
  | writeNode
  /-- Gives write permission to the entire subtree rooted at this node. -/
  | writeSubtree
  /-- Gives write permission to the entire subtree including this node. -/
  | writeNodeAndSubtree
  /-- Gives no permission to this node and the entire subtree. -/
  | none
deriving DecidableEq, Repr

/-- The nodes that own their place; the source never builds others. -/
inductive PermissionNode (Ty : Type u) where
  | ownedNode (place : Place Ty) (kind : PermissionKind) (children : List (PermissionNode Ty))

namespace PermissionNode

variable {Ty : Type u}

def place : PermissionNode Ty → Place Ty
  | ownedNode place _ _ => place

def kind : PermissionNode Ty → PermissionKind
  | ownedNode _ kind _ => kind

def children : PermissionNode Ty → List (PermissionNode Ty)
  | ownedNode _ _ children => children

def setPermissionKind (kind : PermissionKind) : PermissionNode Ty → PermissionNode Ty
  | ownedNode place _ children => ownedNode place kind children

mutual

/-- The number of nodes. -/
def size : PermissionNode Ty → Nat
  | ownedNode _ _ children => sizes children + 1

def sizes : List (PermissionNode Ty) → Nat
  | [] => 0
  | node :: nodes => size node + sizes nodes

end

variable [DecidableEq Ty]

/-- Change the child with the place, which is created if there is none. -/
def updateChildren (place : Place Ty) (kind : PermissionKind)
    (update : PermissionNode Ty → PermissionNode Ty) :
    List (PermissionNode Ty) → List (PermissionNode Ty)
  | [] => [update (ownedNode place kind [])]
  | child :: rest =>
    if child.place = place then update child :: rest
    else child :: updateChildren place kind update rest

/-- Get the child with the place or create it, and go on with it. -/
def getOrCreateChild (place : Place Ty) (kind : PermissionKind)
    (update : PermissionNode Ty → PermissionNode Ty) : PermissionNode Ty → PermissionNode Ty
  | ownedNode nodePlace nodeKind children =>
    ownedNode nodePlace nodeKind (updateChildren place kind update children)

end PermissionNode

inductive TargetType where
  /-- Read a node or its contents. -/
  | read
  /-- Write the entire node. -/
  | writeNode
  /-- Write only the node's contents. -/
  | writeContents
deriving DecidableEq, Repr

namespace TargetType

def isWrite : TargetType → Bool
  | read => false
  | writeNode | writeContents => true

def toPermissionKind : TargetType → PermissionKind
  | read => .readSubtree
  | writeNode => .writeNodeAndSubtree
  | writeContents => .writeSubtree

end TargetType

variable {Ty : Type u} [DecidableEq Ty] (types : PlaceTypes Ty)

namespace PermissionTree

/-- Put the nodes of the components above a node, from the lowest one upwards.  The steps
below the target place get a write permission if the target is written. -/
def wrapComponents (targetPlace : Place Ty) :
    PermissionNode Ty → PermissionKind → List (Place Ty) → PermissionNode Ty
  | node, _, [] => node
  | node, permissionKind, component :: components =>
    wrapComponents targetPlace (.ownedNode component permissionKind [node])
      (if component = targetPlace then .readNode else permissionKind) components

/-- A tree with one leaf. -/
def new (place targetPlace : Place Ty) (targetType : TargetType) : Option (PermissionNode Ty) := do
  let components ← vecPlace types place
  match components.reverse with
  | [] => none
  | last :: above =>
    let node := .ownedNode last targetType.toPermissionKind []
    let permissionKind :=
      if last = targetPlace || !targetType.isWrite then .readNode else .writeNode
    some (wrapComponents targetPlace node permissionKind above)

/-- Walk down along the components.  The nodes on the way get a write permission if the
target is written; the last one keeps its kind if it exists already. -/
def addComponents (targetType : TargetType) :
    List (Place Ty) → PermissionNode Ty → PermissionNode Ty
  | [], node => node
  | [component], node =>
    node.getOrCreateChild component targetType.toPermissionKind fun child => child
  | component :: next :: components, node =>
    node.getOrCreateChild component .readNode fun child =>
      addComponents targetType (next :: components)
        (if targetType.isWrite then child.setPermissionKind .writeNode else child)

/-- Add a new place.  A write root node must not be added to an existing tree; a read root
node is ignored. -/
def add (root : PermissionNode Ty) (place : Place Ty) (targetType : TargetType) :
    Option (PermissionNode Ty) := do
  let components ← vecPlace types place
  match components with
  | [] => none
  | [_] => if targetType.isWrite then none else some root
  | _ :: components => some (addComponents targetType components root)

/-- The permission to a child that comes from its parent. -/
def childPermission (node child : PermissionNode Ty) : Option (PermissionKind × Place Ty) :=
  if child.kind = .writeNodeAndSubtree then some (.writeNode, child.place)
  else
    match node.kind with
    | .readNode | .writeNode => some (node.kind, child.place)
    | _ => none

/-- The permission to the subtree of a node. -/
def subtreePermissions (node : PermissionNode Ty) : List (PermissionKind × Place Ty) :=
  match node.kind with
  | .readSubtree => [(node.kind, node.place)]
  | .writeNodeAndSubtree | .writeSubtree => [(.writeSubtree, node.place)]
  | .readNode | .writeNode | .none => []

/-- The permissions of a node and its children. -/
def nodePermissions (node : PermissionNode Ty) : Option (List (PermissionKind × Place Ty)) := do
  let childPermissions ← node.children.mapM (childPermission node)
  some (childPermissions ++ subtreePermissions node)

/-- The loop of `getPermissions`, with the nodes to visit as a stack, listed from its top. -/
def visitNodes : Nat → List (PermissionKind × Place Ty) → List (PermissionNode Ty) →
    Option (List (PermissionKind × Place Ty))
  | _, visited, [] => some visited
  | 0, _, _ :: _ => none
  | fuel + 1, visited, node :: toVisit => do
    let permissions ← nodePermissions node
    visitNodes fuel (visited ++ permissions) (node.children.reverse ++ toVisit)

def getPermissions (root : PermissionNode Ty) : Option (List (PermissionKind × Place Ty)) :=
  visitNodes root.size [] [root]

end PermissionTree

namespace PermissionForest

/-- The pairs of a place to add and its target, with what was found so far. -/
structure PlacesToAdd (Ty : Type u) where
  result : List (Place Ty × Place Ty)
  foundDefInitPrefix : Bool
  foundTargetPrefix : Bool

def visitPlaceToAdd (place : Place Ty) (state : PlacesToAdd Ty) (defInitPlace : Place Ty) :
    Option (PlacesToAdd Ty) :=
  if isPrefix place defInitPlace then
    if !state.foundTargetPrefix && !state.foundDefInitPrefix then
      some ⟨state.result ++ [(place, place)], true, state.foundTargetPrefix⟩
    else none
  else if isPrefix defInitPlace place then
    if !state.foundDefInitPrefix then
      some ⟨state.result ++ [(defInitPlace, place)], state.foundDefInitPrefix, true⟩
    else none
  else some state

/-- Take the intended place to add and compute the set of places to add that are definitely
initialised. -/
def computePlacesToAdd (place : Place Ty) (allPlaces : List (Place Ty)) :
    Option (List (Place Ty × Place Ty)) := do
  let state ← allPlaces.foldlM (visitPlaceToAdd place) ⟨[], false, false⟩
  if state.foundTargetPrefix || state.foundDefInitPrefix then some state.result else none

/-- Add the places below one path: to the trees whose root is above, or as new trees. -/
def addPath (targetType : TargetType) (allPlaces : List (Place Ty))
    (trees : List (PermissionNode Ty)) (place : Place Ty) :
    Option (List (PermissionNode Ty)) := do
  let placesToAdd ← computePlacesToAdd place allPlaces
  let added ← trees.mapM fun tree =>
    if isPrefix place tree.place then
      placesToAdd.foldlM (fun tree toAdd => PermissionTree.add types tree toAdd.1 targetType) tree
    else some tree
  if trees.any fun tree => isPrefix place tree.place then some added
  else
    let new ← placesToAdd.mapM fun toAdd =>
      PermissionTree.new types toAdd.1 toAdd.2 targetType
    some (added ++ new)

def addPaths (targetType : TargetType) (allPlaces : List (Place Ty))
    (paths : List (Place Ty)) (trees : List (PermissionNode Ty)) :
    Option (List (PermissionNode Ty)) :=
  paths.foldlM (addPath types targetType allPlaces) trees

/-- The paths to whose leaves we should have write permission, those that are roots of
trees to which we should have write permission, and those to whose leaves we should have
read permission.  The places of the set are given in the order of its iteration. -/
def new (writePaths mutBorrowedPaths readPaths : List (Place Ty))
    (allPlaces : List (Place Ty)) : Option (List (PermissionNode Ty)) := do
  let trees ← addPaths types .writeNode allPlaces writePaths []
  let trees ← addPaths types .writeContents allPlaces mutBorrowedPaths trees
  addPaths types .read allPlaces readPaths trees

end PermissionForest

/-- The place set that the forest of a loop invariant is built with. -/
def computeAllPlaces (leaves : Leaves Ty) : Option (Finset (Place Ty)) := do
  let allPlaces ← leaves.readLeaves.foldlM (PlaceSet.insert types) ∅
  let allPlaces ← leaves.mutBorrowLeaves.foldlM (PlaceSet.insert types) allPlaces
  leaves.writeLeaves.foldlM (PlaceSet.insert types) allPlaces

/-- The forest of a loop invariant with the permissions of all its trees.  The places of
the set are given in the order of their iteration. -/
def invariantPermissions (leaves : Leaves Ty) (allPlaces : List (Place Ty)) :
    Option (List (PermissionKind × Place Ty)) := do
  let trees ← PermissionForest.new types leaves.writeLeaves leaves.mutBorrowLeaves
    leaves.readLeaves allPlaces
  (trees.mapM PermissionTree.getPermissions).map List.flatten

end Prusti.LoopInvariant

/-
The permissions that a permission tree gives, node by node, and the paths of places.
-/
import Prusti.Lib.Lists
import Prusti.LoopInvariant.PermissionTrees

namespace Prusti.LoopInvariant

open Prusti.Lib Prusti.Mir Prusti.Analysis PermissionNode

universe u

variable {Ty : Type u}

namespace PermissionTree

variable {root node child : PermissionNode Ty} {permission : PermissionKind × Place Ty}

/-- A node gives a permission: to one of its children or to its subtree. -/
def Gives (node : PermissionNode Ty) (permission : PermissionKind × Place Ty) : Prop :=
  (∃ child ∈ node.children, childPermission node child = some permission) ∨
    permission ∈ subtreePermissions node

/-- The kinds of a node that has children; a child that is written with its subtree does
not ask for more. -/
def HasNodeKind (node : PermissionNode Ty) : Prop :=
  ∀ child ∈ node.children, child.kind = .writeNodeAndSubtree ∨ node.kind = .readNode ∨
    node.kind = .writeNode

theorem exists_childPermission (h : HasNodeKind node) (hchild : child ∈ node.children) :
    ∃ permission, childPermission node child = some permission := by
  unfold childPermission
  by_cases hkind : child.kind = .writeNodeAndSubtree
  · exact ⟨_, if_pos hkind⟩
  · rw [if_neg hkind]
    rcases (h child hchild).resolve_left hkind with hread | hwrite
    · rw [hread]
      exact ⟨_, rfl⟩
    · rw [hwrite]
      exact ⟨_, rfl⟩

theorem exists_nodePermissions (h : HasNodeKind node) :
    ∃ permissions, nodePermissions node = some permissions := by
  obtain ⟨permissions, hpermissions⟩ :=
    exists_mapM_eq_some fun child (hchild : child ∈ node.children) =>
      exists_childPermission h hchild
  exact ⟨permissions ++ subtreePermissions node, by rw [nodePermissions, hpermissions]; rfl⟩

theorem mem_nodePermissions {permissions : List (PermissionKind × Place Ty)}
    (h : nodePermissions node = some permissions) :
    permission ∈ permissions ↔ Gives node permission := by
  simp only [nodePermissions, Option.bind_eq_bind, Option.bind_eq_some_iff, Option.some.injEq] at h
  obtain ⟨childPermissions, hmap, rfl⟩ := h
  rw [List.mem_append, Gives, mem_of_mapM_eq_some hmap]

/-- The nodes of the trees on the stack. -/
def OnStack (toVisit : List (PermissionNode Ty)) (node : PermissionNode Ty) : Prop :=
  ∃ root ∈ toVisit, InTree root node

theorem onStack_cons_iff {toVisit : List (PermissionNode Ty)} {other : PermissionNode Ty} :
    OnStack (node :: toVisit) other ↔
      other = node ∨ OnStack (node.children.reverse ++ toVisit) other := by
  simp only [OnStack, List.exists_mem_cons_iff, List.mem_append, List.mem_reverse]
  constructor
  · rintro (hnode | ⟨root, hroot, hother⟩)
    · rcases Relation.ReflTransGen.cases_head hnode with rfl | ⟨child, hchild, hother⟩
      · exact .inl rfl
      · exact .inr ⟨child, .inl hchild, hother⟩
    · exact .inr ⟨root, .inr hroot, hother⟩
  · rintro (rfl | ⟨root, hchild | hroot, hother⟩)
    · exact .inl .refl
    · exact .inl (.head hchild hother)
    · exact .inr ⟨root, hroot, hother⟩

/-- The visit collects what the nodes give. -/
theorem visitNodes_spec {fuel : Nat} {visited : List (PermissionKind × Place Ty)}
    {toVisit : List (PermissionNode Ty)} (hfuel : sizes toVisit ≤ fuel)
    (hnodes : ∀ node, OnStack toVisit node → HasNodeKind node) :
    ∃ permissions, visitNodes fuel visited toVisit = some permissions ∧
      ∀ permission, permission ∈ permissions ↔
        permission ∈ visited ∨ ∃ node, OnStack toVisit node ∧ Gives node permission := by
  induction fuel generalizing visited toVisit with
  | zero =>
    cases toVisit with
    | nil => exact ⟨visited, by rw [visitNodes], by simp [OnStack]⟩
    | cons node toVisit =>
      rw [sizes, size_eq] at hfuel
      omega
  | succ fuel ih =>
    cases toVisit with
    | nil => exact ⟨visited, by rw [visitNodes], by simp [OnStack]⟩
    | cons node toVisit =>
      obtain ⟨permissions, hpermissions⟩ :=
        exists_nodePermissions (hnodes node ⟨node, List.mem_cons_self, .refl⟩)
      have hrest : sizes (node.children.reverse ++ toVisit) ≤ fuel := by
        rw [sizes, size_eq] at hfuel
        rw [sizes_append, sizes_reverse]
        omega
      obtain ⟨result, hresult, hmem⟩ := @ih (visited ++ permissions) _ hrest
        fun other hother => hnodes other (onStack_cons_iff.mpr (.inr hother))
      refine ⟨result, ?_, fun permission => ?_⟩
      · rw [visitNodes, hpermissions, Option.bind_eq_bind, Option.bind_some]
        exact hresult
      · simp only [hmem, List.mem_append, mem_nodePermissions hpermissions,
          onStack_cons_iff, or_and_right, exists_or, exists_eq_left, or_assoc]

/-- The permissions of a tree are those that its nodes give. -/
theorem getPermissions_spec (hnodes : ∀ node, InTree root node → HasNodeKind node) :
    ∃ permissions, getPermissions root = some permissions ∧
      ∀ permission, permission ∈ permissions ↔
        ∃ node, InTree root node ∧ Gives node permission := by
  have hstack : ∀ node, OnStack [root] node ↔ InTree root node := by simp [OnStack]
  obtain ⟨permissions, hpermissions, hmem⟩ := @visitNodes_spec _ root.size [] [root]
    (by simp [sizes]) fun node hnode => hnodes node ((hstack node).mp hnode)
  refine ⟨permissions, hpermissions, fun permission => ?_⟩
  simp [hmem, hstack]

end PermissionTree

section Paths

variable {base x place : Place Ty} {elems others : List (ProjectionElem Ty)}

theorem project_inj {elem other : ProjectionElem Ty} :
    base.project elem = base.project other ↔ elem = other := by
  refine ⟨fun h => ?_, fun h => h ▸ rfl⟩
  have := congrArg Place.projection h
  simpa using this

theorem pathFrom_prefix_iff : pathFrom base elems <+: pathFrom base others ↔ elems <+: others := by
  induction elems generalizing base others with
  | nil => simp [pathFrom]
  | cons elem elems ih =>
    cases others with
    | nil => simp [pathFrom]
    | cons other others =>
      rw [pathFrom, pathFrom, List.cons_prefix_cons, List.cons_prefix_cons, project_inj]
      refine and_congr_right fun heq => ?_
      rw [heq, ih]

theorem pathOf_prefix_iff (hlocal : x.local = place.local) :
    pathOf x <+: pathOf place ↔ x ≤ place := by
  rw [pathOf, pathOf, hlocal, pathFrom_prefix_iff, place_le_iff]
  exact (and_iff_right hlocal).symm

theorem pathOf_inj (hlocal : x.local = place.local) : pathOf x = pathOf place ↔ x = place := by
  refine ⟨fun h => ?_, fun h => h ▸ rfl⟩
  apply le_antisymm
  · exact (pathOf_prefix_iff hlocal).mp (h ▸ List.prefix_rfl)
  · exact (pathOf_prefix_iff hlocal.symm).mp (h ▸ List.prefix_rfl)

theorem pathOf_eq_nil_iff : pathOf x = [] ↔ x.projection = [] := by
  unfold pathOf
  cases x.projection <;> simp [pathFrom]

theorem getLast?_pathFrom :
    (base :: pathFrom base elems).getLast? = some ⟨base.local, base.projection ++ elems⟩ := by
  induction elems generalizing base with
  | nil => simp [pathFrom]
  | cons elem elems ih =>
    rw [pathFrom, List.getLast?_cons_cons, ih]
    simp

theorem getLast?_pathOf : (Place.ofLocal x.local :: pathOf x).getLast? = some x := getLast?_pathFrom

end Paths

end Prusti.LoopInvariant

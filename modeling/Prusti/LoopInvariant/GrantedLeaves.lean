/-
When the permissions of a loop invariant are those that the accesses of the loop ask for.
-/
import Prusti.LoopInvariant.ForestHistory

namespace Prusti.LoopInvariant

open Prusti.Lib Prusti.Mir Prusti.Analysis PermissionNode

universe u

variable {Ty : Type u}

theorem le_or_le_of_le {x y z : Place Ty} (hx : x ≤ z) (hy : y ≤ z) : x ≤ y ∨ y ≤ x := by
  rcases List.prefix_or_prefix_of_prefix hx.2 hy.2 with h | h
  · exact .inl ⟨hx.1.trans hy.1.symm, h⟩
  · exact .inr ⟨hy.1.trans hx.1.symm, h⟩

variable [DecidableEq Ty]

section Places

variable {added : Place Ty} {order : List (Place Ty)} {allPlaces : Finset (Place Ty)}
  {types : PlaceTypes Ty}

theorem PlaceSet.checkInvariant_iff :
    PlaceSet.checkInvariant allPlaces = true ↔ ∀ x ∈ allPlaces, ∀ y ∈ allPlaces, x ≤ y → x = y := by
  simp only [PlaceSet.checkInvariant, decide_eq_true_iff]
  constructor
  · intro h x hx y hy hle
    by_contra hne
    have hpre := (h x hx y hy hne).2
    rw [isPrefix_iff.mpr hle] at hpre
    cases hpre
  · intro h x hx y hy hne
    constructor
    · rw [← Bool.not_eq_true, isPrefix_iff]
      exact fun hle => hne (h y hy x hx hle).symm
    · rw [← Bool.not_eq_true, isPrefix_iff]
      exact fun hle => hne (h x hx y hy hle)

theorem foldlM_visitPlaceToAdd {state : PermissionForest.PlacesToAdd Ty}
    (h : ∀ x ∈ order, ¬ x ≤ added ∧ ¬ added ≤ x) :
    order.foldlM (PermissionForest.visitPlaceToAdd added) state = some state := by
  induction order with
  | nil => rfl
  | cons x order ih =>
    have hx := h x List.mem_cons_self
    have hvisit : PermissionForest.visitPlaceToAdd added state x = some state := by
      rw [PermissionForest.visitPlaceToAdd, if_neg (isPrefix_iff.not.mpr hx.1),
        if_neg (isPrefix_iff.not.mpr hx.2)]
    rw [List.foldlM_cons, hvisit, Option.bind_eq_bind, Option.bind_some]
    exact ih fun y hy => h y (List.mem_cons_of_mem _ hy)

/-- A covered place is added itself. -/
theorem computePlacesToAdd_eq (hnodup : order.Nodup)
    (hfree : ∀ x ∈ order, ∀ y ∈ order, x ≤ y → x = y) (hcovers : ∃ x ∈ order, x ≤ added) :
    PermissionForest.computePlacesToAdd added order = some [(added, added)] := by
  obtain ⟨x, hx, hle⟩ := hcovers
  obtain ⟨front, back, rfl⟩ := List.append_of_mem hx
  have hothers : ∀ y ∈ front ++ x :: back, y ≠ x → ¬ y ≤ added ∧ ¬ added ≤ y := by
    intro y hy hne
    constructor
    · intro hyle
      rcases le_or_le_of_le hyle hle with h | h
      · exact hne (hfree y hy x hx h)
      · exact hne (hfree x hx y hy h).symm
    · intro hley
      exact hne (hfree x hx y hy (hle.trans hley)).symm
  have hdisjoint := List.nodup_append'.mp hnodup
  have hfront : ∀ y ∈ front, ¬ y ≤ added ∧ ¬ added ≤ y := fun y hy =>
    hothers y (List.mem_append_left _ hy) fun heq =>
      hdisjoint.2.2 (heq ▸ hy) List.mem_cons_self
  have hback : ∀ y ∈ back, ¬ y ≤ added ∧ ¬ added ≤ y := fun y hy =>
    hothers y (List.mem_append_right _ (List.mem_cons_of_mem _ hy)) fun heq =>
      (List.nodup_cons.mp hdisjoint.2.1).1 (heq ▸ hy)
  have hvisit : PermissionForest.visitPlaceToAdd added ⟨[], false, false⟩ x =
      some ⟨[(added, added)], true, false⟩ := by
    rw [PermissionForest.visitPlaceToAdd, if_pos (isPrefix_iff.mpr hle)]
    rfl
  rw [PermissionForest.computePlacesToAdd, List.foldlM_append, foldlM_visitPlaceToAdd hfront]
  simp only [Option.bind_eq_bind, Option.bind_some, List.foldlM_cons, hvisit,
    foldlM_visitPlaceToAdd hback, Bool.or_true, if_true]

/-- The place sets that are built from lists of places. -/
theorem foldlM_insert_spec {places : List (Place Ty)} {before after : Finset (Place Ty)}
    (h : places.foldlM (PlaceSet.insert types) before = some after)
    (hinvariant : PlaceSet.checkInvariant before = true) :
    PlaceSet.checkInvariant after = true ∧ (∀ x ∈ places, Covers after x) ∧
      ∀ x, Covers before x → Covers after x := by
  induction places generalizing before with
  | nil =>
    cases h
    exact ⟨hinvariant, fun _ hx => absurd hx List.not_mem_nil, fun _ hx => hx⟩
  | cons place places ih =>
    rw [List.foldlM_cons, Option.bind_eq_bind, Option.bind_eq_some_iff] at h
    obtain ⟨next, hnext, h⟩ := h
    obtain ⟨hplace, hkeep, hnextInvariant⟩ := PlaceSet.insert_spec hnext
    obtain ⟨hafter, hplaces, hkeep'⟩ := ih h hnextInvariant
    refine ⟨hafter, ?_, fun x hx => hkeep' x (hkeep x hx)⟩
    intro x hx
    rcases List.mem_cons.mp hx with rfl | hx
    · exact hkeep' x hplace
    · exact hplaces x hx

theorem computeAllPlaces_spec {leaves : Leaves Ty}
    (h : computeAllPlaces types leaves = some allPlaces) :
    PlaceSet.checkInvariant allPlaces = true ∧
      ∀ x ∈ leaves.writeLeaves ++ leaves.mutBorrowLeaves ++ leaves.readLeaves,
        Covers allPlaces x := by
  simp only [computeAllPlaces, Option.bind_eq_bind, Option.bind_eq_some_iff] at h
  obtain ⟨first, hfirst, second, hsecond, hthird⟩ := h
  obtain ⟨hinvariant, hread, -⟩ := foldlM_insert_spec hfirst (by simp [PlaceSet.checkInvariant])
  obtain ⟨hinvariant, hmut, hkeep⟩ := foldlM_insert_spec hsecond hinvariant
  obtain ⟨hinvariant, hwrite, hkeep'⟩ := foldlM_insert_spec hthird hinvariant
  refine ⟨hinvariant, fun x hx => ?_⟩
  simp only [List.mem_append] at hx
  rcases hx with (hx | hx) | hx
  · exact hwrite x hx
  · exact hkeep' x (hmut x hx)
  · exact hkeep' x (hkeep x (hread x hx))

end Places

section Run

variable {types : PlaceTypes Ty} {allPlaces : List (Place Ty)}
  {trees result : List (PermissionNode Ty)} {history leaves : List (Leaf Ty)}

/-- The leaves in the order in which they are added. -/
def Leaves.toAdd (leaves : Leaves Ty) : List (Leaf Ty) :=
  leaves.writeLeaves.map (·, TargetType.writeNode) ++
    leaves.mutBorrowLeaves.map (·, TargetType.writeContents) ++
      leaves.readLeaves.map (·, TargetType.read)

def addLeaf (types : PlaceTypes Ty) (allPlaces : List (Place Ty))
    (trees : List (PermissionNode Ty)) (leaf : Leaf Ty) : Option (List (PermissionNode Ty)) :=
  PermissionForest.addPath types leaf.2 allPlaces trees leaf.1

theorem addPaths_eq {targetType : TargetType} {paths : List (Place Ty)} :
    PermissionForest.addPaths types targetType allPlaces paths trees =
      (paths.map (·, targetType)).foldlM (addLeaf types allPlaces) trees := by
  rw [PermissionForest.addPaths, List.foldlM_map]
  rfl

theorem new_eq_foldlM {leaves : Leaves Ty} :
    PermissionForest.new types leaves.writeLeaves leaves.mutBorrowLeaves leaves.readLeaves
      allPlaces = leaves.toAdd.foldlM (addLeaf types allPlaces) [] := by
  simp only [PermissionForest.new, addPaths_eq, Leaves.toAdd, List.foldlM_append,
    Option.bind_eq_bind, Option.bind_assoc]

/-- A leaf that can be added as it is. -/
def Addable (types : PlaceTypes Ty) (allPlaces : List (Place Ty)) (place : Place Ty) : Prop :=
  (vecPlace types place).isSome ∧
    PermissionForest.computePlacesToAdd place allPlaces = some [(place, place)]

/-- No leaf is at or below an earlier one. -/
def AddedUpwards (leaves : List (Leaf Ty)) : Prop :=
  leaves.Pairwise fun leaf later => ¬ leaf.1 ≤ later.1

/-- Some leaf lies below another one. -/
def HasShadow (leaves : List (Leaf Ty)) : Prop :=
  ∃ leaf ∈ leaves, ∃ other ∈ leaves, leaf.1 < other.1

omit [DecidableEq Ty] in
theorem AddedUpwards.not_le (h : AddedUpwards (history ++ leaves)) {leaf later : Leaf Ty}
    (hleaf : leaf ∈ history) (hlater : later ∈ leaves) : ¬ leaf.1 ≤ later.1 :=
  (List.pairwise_append.mp h).2.2 leaf hleaf later hlater

/-- What a successful run of additions leaves behind. -/
theorem history_of_foldlM (hrooted : WellRooted trees)
    (hhistory : History history (forestKind trees)) (hadd : ∀ leaf ∈ leaves, Addable types
      allPlaces leaf.1) (hup : AddedUpwards (history ++ leaves))
    (hresult : leaves.foldlM (addLeaf types allPlaces) trees = some result) :
    WellRooted result ∧ History (history ++ leaves) (forestKind result) := by
  induction leaves generalizing history trees with
  | nil =>
    cases hresult
    rw [List.append_nil]
    exact ⟨hrooted, hhistory⟩
  | cons leaf leaves ih =>
    rw [List.foldlM_cons, Option.bind_eq_bind, Option.bind_eq_some_iff] at hresult
    obtain ⟨next, hnext, hresult⟩ := hresult
    obtain ⟨hvec, hplaces⟩ := hadd leaf List.mem_cons_self
    rcases addPath_spec hrooted hvec hplaces with ⟨hnone, -⟩ | ⟨trees', htrees', hrooted', hstep⟩
    · rw [addLeaf, hnone] at hnext
      cases hnext
    · cases htrees'.symm.trans hnext
      rw [← List.singleton_append, ← List.append_assoc] at hup ⊢
      refine ih hrooted' ?_ (fun other hother => hadd other (List.mem_cons_of_mem _ hother))
        hup hresult
      refine hhistory.step hstep fun other hother => ?_
      rw [List.append_assoc] at hup
      exact hup.not_le hother List.mem_cons_self

/-- Without a leaf below another one, all leaves can be added. -/
theorem exists_foldlM (hrooted : WellRooted trees)
    (hhistory : History history (forestKind trees)) (hadd : ∀ leaf ∈ leaves, Addable types
      allPlaces leaf.1) (hup : AddedUpwards (history ++ leaves))
    (hshadow : ¬ HasShadow (history ++ leaves)) :
    ∃ result, leaves.foldlM (addLeaf types allPlaces) trees = some result := by
  induction leaves generalizing history trees with
  | nil => exact ⟨trees, rfl⟩
  | cons leaf leaves ih =>
    obtain ⟨hvec, hplaces⟩ := hadd leaf List.mem_cons_self
    have hnew : ∀ other ∈ history, ¬ other.1 ≤ leaf.1 := fun other hother =>
      hup.not_le hother List.mem_cons_self
    rcases addPath_spec hrooted hvec hplaces with
      ⟨-, -, hsome⟩ | ⟨trees', htrees', hrooted', hstep⟩
    · obtain ⟨other, hother, hle⟩ := (hhistory.domain leaf.1).mp hsome
      refine absurd ⟨leaf, ?_, other, List.mem_append_left _ hother, ?_⟩ hshadow
      · exact List.mem_append_right _ List.mem_cons_self
      · exact lt_of_le_of_ne hle fun heq => hnew other hother heq.ge
    · rw [← List.singleton_append, ← List.append_assoc] at hup hshadow
      obtain ⟨result, hresult⟩ := ih hrooted' (hhistory.step hstep hnew)
        (fun other hother => hadd other (List.mem_cons_of_mem _ hother)) hup hshadow
      refine ⟨result, ?_⟩
      rw [List.foldlM_cons, addLeaf, htrees', Option.bind_eq_bind, Option.bind_some]
      exact hresult

/-- The nodes of the trees have the kinds of the forest. -/
theorem WellRooted.forestKind_of_inTree (h : WellRooted trees) {tree node : PermissionNode Ty}
    (htree : tree ∈ trees) (hnode : InTree tree node) :
    forestKind trees node.place = some node.kind := by
  obtain ⟨elems, hplace, hkind⟩ := kindAt_of_inTree (h.wellPlaced tree htree) hnode
  have hroot := h.root tree htree
  rw [h.forestKind_eq htree (by rw [hplace, ← hroot]), ← hkind, pathOf, hplace]
  refine congrArg tree.kindAt ?_
  rw [hroot]
  rfl

theorem exists_inTree_of_forestKind {x : Place Ty} {kind : PermissionKind}
    (hkind : forestKind trees x = some kind) :
    ∃ tree ∈ trees, ∃ node, InTree tree node ∧ node.kind = kind ∧ node.place = x ∧
      (x.projection ≠ [] → ∃ parent, InTree tree parent ∧ node ∈ parent.children) := by
  obtain ⟨tree, hfind, hkind⟩ := Option.bind_eq_some_iff.mp hkind
  have htree := List.mem_of_find?_eq_some hfind
  have hroot : tree.place = Place.ofLocal x.local := by
    have := List.find?_some hfind
    exact of_decide_eq_true this
  rw [pathOf, ← hroot] at hkind
  obtain ⟨node, hnode, hnodeKind, hplace, hparent⟩ := exists_inTree_of_kindAt hkind
  refine ⟨tree, htree, node, hnode, hnodeKind, ?_, hparent⟩
  rw [hplace, hroot]
  rfl

omit [DecidableEq Ty] in
theorem lt_of_mem_children {tree node child : PermissionNode Ty} (htree : tree.WellPlaced)
    (hnode : InTree tree node) (hchild : child ∈ node.children) : node.place < child.place := by
  induction hnode using Relation.ReflTransGen.head_induction_on with
  | refl =>
    obtain ⟨hplace, -, -⟩ := htree
    obtain ⟨elem, helem⟩ := hplace child hchild
    rw [helem]
    exact place_lt_project _ _
  | head hmem _ ih =>
    obtain ⟨-, -, hchildren⟩ := htree
    exact ih (hchildren _ hmem)

/-- Every tree of the forest gives its permissions. -/
theorem exists_permissions (hrooted : WellRooted trees)
    (hhistory : History leaves (forestKind trees)) :
    ∃ permissions, (trees.mapM PermissionTree.getPermissions).map List.flatten = some permissions ∧
      ∀ permission, permission ∈ permissions ↔ ∃ tree ∈ trees, ∃ node, InTree tree node ∧
        PermissionTree.Gives node permission := by
  have hkind : ∀ tree ∈ trees, ∀ node, InTree tree node → PermissionTree.HasNodeKind node := by
    intro tree htree node hnode child hchild
    right
    have hnodeKind := hrooted.forestKind_of_inTree htree hnode
    have hchildKind := hrooted.forestKind_of_inTree htree (hnode.tail hchild)
    rcases hhistory.inner _ _ hnodeKind with h | h | ⟨targetType, hmem, -⟩
    · exact .inl h
    · exact .inr h
    · obtain ⟨leaf, hleaf, hle⟩ := (hhistory.domain child.place).mp (by
        rw [hchildKind]
        rfl)
      have hlt := lt_of_mem_children (hrooted.wellPlaced tree htree) hnode hchild
      have hshadowed := hhistory.shadowed _ hmem ⟨leaf, hleaf, hlt.trans_le hle⟩
      rw [hnodeKind] at hshadowed
      exact hshadowed.imp Option.some.inj Option.some.inj
  obtain ⟨lists, hlists⟩ := exists_mapM_eq_some fun tree (htree : tree ∈ trees) =>
    (PermissionTree.getPermissions_spec (hkind tree htree)).imp fun _ h => h.1
  refine ⟨lists.flatten, by rw [hlists]; rfl, fun permission => ?_⟩
  rw [List.mem_flatten]
  constructor
  · rintro ⟨list, hlist, hmem⟩
    obtain ⟨tree, htree, hget⟩ := (mem_of_mapM_eq_some hlists).mp hlist
    obtain ⟨permissions, hpermissions, hspec⟩ :=
      PermissionTree.getPermissions_spec (hkind tree htree)
    cases hget.symm.trans hpermissions
    exact ⟨tree, htree, (hspec permission).mp hmem⟩
  · rintro ⟨tree, htree, hgives⟩
    obtain ⟨permissions, hpermissions, hspec⟩ :=
      PermissionTree.getPermissions_spec (hkind tree htree)
    exact ⟨permissions, (mem_of_mapM_eq_some hlists).mpr ⟨tree, htree, hpermissions⟩,
      (hspec permission).mpr hgives⟩

end Run

section Granted

/-- The kinds that give write permission to a subtree. -/
def PermissionKind.writesSubtree : PermissionKind → Bool
  | writeSubtree | writeNodeAndSubtree => true
  | _ => false

/-- The kinds that give at least read permission to a subtree. -/
def PermissionKind.readsSubtree : PermissionKind → Bool
  | readSubtree | writeSubtree | writeNodeAndSubtree => true
  | _ => false

/-- A subtree permission to the place or to one of its prefixes. -/
def GrantsSubtree (permissions : List (PermissionKind × Place Ty))
    (kinds : PermissionKind → Bool) (place : Place Ty) : Prop :=
  ∃ permission ∈ permissions, kinds permission.1 = true ∧ permission.2 ≤ place

/-- Write permission to the node itself, directly or through the subtree of a place above.
A local is no field of anything, so that there is no permission to its node alone; it is
granted with its subtree. -/
def GrantsNode (permissions : List (PermissionKind × Place Ty)) (place : Place Ty) : Prop :=
  (PermissionKind.writeNode, place) ∈ permissions ∨
    ∃ permission ∈ permissions, permission.1.writesSubtree = true ∧
      (permission.2 < place ∨ (permission.2 = place ∧ place.projection = []))

/-- What the leaves ask for is granted. -/
structure GrantsLeaves (leaves : Leaves Ty)
    (permissions : List (PermissionKind × Place Ty)) : Prop where
  writeNode : ∀ place ∈ leaves.writeLeaves, GrantsNode permissions place
  write : ∀ place ∈ leaves.writeLeaves, GrantsSubtree permissions PermissionKind.writesSubtree place
  mutBorrow : ∀ place ∈ leaves.mutBorrowLeaves,
    GrantsSubtree permissions PermissionKind.writesSubtree place
  read : ∀ place ∈ leaves.readLeaves, GrantsSubtree permissions PermissionKind.readsSubtree place

variable {trees : List (PermissionNode Ty)} {leaves : List (Leaf Ty)}
  {permissions : List (PermissionKind × Place Ty)} {x : Place Ty}

theorem PermissionKind.readsSubtree_of_writesSubtree {kind : PermissionKind}
    (h : kind.writesSubtree = true) : kind.readsSubtree = true := by
  cases kind <;> first
    | rfl
    | cases h

/-- A subtree permission comes from a leaf with nothing below it. -/
theorem lowest_of_gives (hrooted : WellRooted trees)
    (hhistory : History leaves (forestKind trees)) {tree node : PermissionNode Ty}
    (htree : tree ∈ trees) (hnode : InTree tree node) {permission : PermissionKind × Place Ty}
    (hgives : PermissionTree.Gives node permission) (hkind : permission.1.readsSubtree = true) :
    ∀ other ∈ leaves, ¬ permission.2 < other.1 := by
  intro other hother hlt
  rcases hgives with ⟨child, hchild, hpermission⟩ | hpermission
  · -- the permissions to children are no subtree permissions
    unfold PermissionTree.childPermission at hpermission
    split at hpermission
    · cases hpermission
      cases hkind
    · split at hpermission
      · next hread =>
          cases hpermission
          rw [hread] at hkind
          cases hkind
      · next hwrite =>
          cases hpermission
          rw [hwrite] at hkind
          cases hkind
      · cases hpermission
  · have hplace : permission.2 = node.place ∧ node.kind.readsSubtree = true := by
      unfold PermissionTree.subtreePermissions at hpermission
      split at hpermission
      · next h =>
          rw [List.mem_singleton.mp hpermission, h]
          exact ⟨rfl, rfl⟩
      · next h =>
          rw [List.mem_singleton.mp hpermission, h]
          exact ⟨rfl, rfl⟩
      · next h =>
          rw [List.mem_singleton.mp hpermission, h]
          exact ⟨rfl, rfl⟩
      all_goals cases hpermission
    have hnodeKind := hrooted.forestKind_of_inTree htree hnode
    rw [hplace.1] at hlt
    rcases hhistory.inner _ _ hnodeKind with h | h | ⟨targetType, hmem, -⟩
    · rw [h] at hplace
      cases hplace.2
    · rw [h] at hplace
      cases hplace.2
    · rcases hhistory.shadowed _ hmem ⟨other, hother, hlt⟩ with h | h
      · rw [hnodeKind] at h
        rw [Option.some.inj h] at hplace
        cases hplace.2
      · rw [hnodeKind] at h
        rw [Option.some.inj h] at hplace
        cases hplace.2

/-- A leaf with nothing below it gets a subtree permission. -/
theorem exists_subtree_permission (hhistory : History leaves (forestKind trees))
    (hmem : ∀ permission, permission ∈ permissions ↔ ∃ tree ∈ trees, ∃ node,
      InTree tree node ∧ PermissionTree.Gives node permission)
    {leaf : Leaf Ty} (hleaf : leaf ∈ leaves) (hlowest : ∀ other ∈ leaves, ¬ leaf.1 < other.1) :
    GrantsSubtree permissions PermissionKind.readsSubtree leaf.1 ∧
      (leaf.2.isWrite = true → GrantsSubtree permissions PermissionKind.writesSubtree leaf.1) ∧
      (leaf.2 = .writeNode → GrantsNode permissions leaf.1) := by
  obtain ⟨place, targetType⟩ := leaf
  obtain ⟨tree, htree, node, hnode, hkind, rfl, hparent⟩ :=
    exists_inTree_of_forestKind (hhistory.lowest _ hleaf hlowest)
  have hgives : ∀ permission ∈ PermissionTree.subtreePermissions node,
      permission ∈ permissions := fun permission hpermission =>
    (hmem permission).mpr ⟨tree, htree, node, hnode, .inr hpermission⟩
  dsimp only at hkind
  cases targetType with
  | read =>
    refine ⟨⟨(.readSubtree, node.place), hgives _ ?_, rfl, le_rfl⟩, nofun, nofun⟩
    rw [PermissionTree.subtreePermissions, hkind]
    exact List.mem_singleton_self _
  | writeContents =>
    have hwrite : (PermissionKind.writeSubtree, node.place) ∈ permissions := by
      apply hgives
      rw [PermissionTree.subtreePermissions, hkind]
      exact List.mem_singleton_self _
    exact ⟨⟨_, hwrite, rfl, le_rfl⟩, fun _ => ⟨_, hwrite, rfl, le_rfl⟩, nofun⟩
  | writeNode =>
    have hwrite : (PermissionKind.writeSubtree, node.place) ∈ permissions := by
      apply hgives
      rw [PermissionTree.subtreePermissions, hkind]
      exact List.mem_singleton_self _
    refine ⟨⟨_, hwrite, rfl, le_rfl⟩, fun _ => ⟨_, hwrite, rfl, le_rfl⟩, fun _ => ?_⟩
    by_cases hlocal : node.place.projection = []
    · exact .inr ⟨_, hwrite, rfl, .inr ⟨rfl, hlocal⟩⟩
    · obtain ⟨parent, hparentTree, hchild⟩ := hparent hlocal
      refine .inl ((hmem _).mpr ⟨tree, htree, parent, hparentTree, .inl ⟨node, hchild, ?_⟩⟩)
      exact if_pos hkind

omit [DecidableEq Ty] in
theorem mem_toAdd_iff {leaves : Leaves Ty} {leaf : Leaf Ty} :
    leaf ∈ leaves.toAdd ↔ (leaf.1 ∈ leaves.writeLeaves ∧ leaf.2 = .writeNode) ∨
      (leaf.1 ∈ leaves.mutBorrowLeaves ∧ leaf.2 = .writeContents) ∨
        (leaf.1 ∈ leaves.readLeaves ∧ leaf.2 = .read) := by
  obtain ⟨place, targetType⟩ := leaf
  simp [Leaves.toAdd, eq_comm, and_comm]

/-- How much an access asks for. -/
def PlaceAccessKind.strength : PlaceAccessKind → Nat
  | read | sharedBorrow => 0
  | mutableBorrow => 1
  | store | move => 2

/-- No access is made below one that asks for less, unless the upper place or one above it
is accessed with a stronger kind as well. -/
def GradedAccesses (pairs : List (AccessPair Ty)) : Prop :=
  ∀ access ∈ pairs, ∀ below ∈ pairs, isPrefix below.1 access.1 = true → access.1 ≠ below.1 →
    access.2.strength < below.2.strength →
      ∃ above ∈ pairs, isPrefix access.1 above.1 = true ∧ access.2.strength < above.2.strength

variable {pairs : List (AccessPair Ty)}

theorem pairwise_of_prefixFree {places : List (Place Ty)} (h : PrefixFree places) :
    places.Pairwise fun place later => ¬ place ≤ later := by
  refine h.1.imp_of_mem fun {place later} hplace hlater hne hle => ?_
  exact hne (h.2 later hlater place hplace (isPrefix_iff.mpr hle))

/-- The leaves are added upwards: writes first, then mutable borrows, then reads. -/
theorem addedUpwards_toAdd : AddedUpwards (leavesOf pairs).toAdd := by
  have hcovers := leavesOf_coverAccesses pairs
  have hmap : ∀ (targetType : TargetType) (places : List (Place Ty)), PrefixFree places →
      AddedUpwards (places.map (·, targetType)) := by
    intro targetType places h
    exact List.pairwise_map.mpr (pairwise_of_prefixFree h)
  refine List.pairwise_append.mpr ⟨List.pairwise_append.mpr ⟨hmap _ _ hcovers.prefixFree_write,
    hmap _ _ hcovers.prefixFree_mutBorrow, ?_⟩, hmap _ _ hcovers.prefixFree_read, ?_⟩
  · intro leaf hleaf later hlater hle
    obtain ⟨write, hwrite, rfl⟩ := List.mem_map.mp hleaf
    obtain ⟨borrow, hmut, rfl⟩ := List.mem_map.mp hlater
    have haccess := (mem_writeLeaves_iff.mp hwrite).1
    obtain ⟨-, hnot, htop⟩ := mem_mutBorrowLeaves_iff.mp hmut
    rcases eq_or_lt_of_le hle with heq | hlt
    · dsimp only at heq
      exact hnot (heq ▸ haccess)
    · exact htop write (haccess.mono fun _ => PlaceAccessKind.isMutAccess_of_isWriteAccess) hlt
  · intro leaf hleaf later hlater hle
    obtain ⟨read, hread, rfl⟩ := List.mem_map.mp hlater
    obtain ⟨-, hnot, htop⟩ := mem_readLeaves_iff.mp hread
    have haccess : Accessed pairs (·.isMutAccess) leaf.1 := by
      rcases List.mem_append.mp hleaf with hleaf | hleaf
      · obtain ⟨write, hwrite, rfl⟩ := List.mem_map.mp hleaf
        exact (mem_writeLeaves_iff.mp hwrite).1.mono
          fun _ => PlaceAccessKind.isMutAccess_of_isWriteAccess
      · obtain ⟨borrow, hmut, rfl⟩ := List.mem_map.mp hleaf
        exact (mem_mutBorrowLeaves_iff.mp hmut).1
    rcases eq_or_lt_of_le hle with heq | hlt
    · dsimp only at heq
      exact hnot (heq ▸ haccess)
    · exact htop leaf.1 (haccess.mono fun _ _ => rfl) hlt

theorem PlaceAccessKind.strength_le (kind : PlaceAccessKind) : kind.strength ≤ 2 := by
  cases kind <;> decide

theorem strength_iff (kind : PlaceAccessKind) :
    (kind.isWriteAccess = true ↔ 1 < kind.strength) ∧
      (kind.isMutAccess = true ↔ 0 < kind.strength) := by
  cases kind <;> decide

/-- A leaf lies below another one exactly when some access asks for more than one above. -/
theorem hasShadow_toAdd_iff : HasShadow (leavesOf pairs).toAdd ↔ ¬ GradedAccesses pairs := by
  simp only [GradedAccesses, not_forall, not_exists, not_and, not_lt]
  constructor
  · rintro ⟨leaf, hleaf, other, hother, hlt⟩
    have hpre := isPrefix_iff.mpr hlt.le
    rcases mem_toAdd_iff.mp hleaf with ⟨hwrite, -⟩ | ⟨hmut, -⟩ | ⟨hread, -⟩
    · -- nothing lies below a write leaf but leaves of no kind
      exfalso
      have hbelow : Accessed pairs (fun _ => true) other.1 ∧
          ∀ above, Accessed pairs (·.isWriteAccess) above → ¬ above < other.1 := by
        rcases mem_toAdd_iff.mp hother with ⟨h, -⟩ | ⟨h, -⟩ | ⟨h, -⟩
        · exact ⟨(mem_writeLeaves_iff.mp h).1.mono fun _ _ => rfl, (mem_writeLeaves_iff.mp h).2⟩
        · obtain ⟨haccess, -, htop⟩ := mem_mutBorrowLeaves_iff.mp h
          exact ⟨haccess.mono fun _ _ => rfl, fun above habove =>
            htop above (habove.mono fun _ => PlaceAccessKind.isMutAccess_of_isWriteAccess)⟩
        · obtain ⟨haccess, -, htop⟩ := mem_readLeaves_iff.mp h
          exact ⟨haccess, fun above habove => htop above (habove.mono fun _ _ => rfl)⟩
      exact hbelow.2 leaf.1 (mem_writeLeaves_iff.mp hwrite).1 hlt
    · obtain ⟨⟨kind, hmem, hkind⟩, hnot, htop⟩ := mem_mutBorrowLeaves_iff.mp hmut
      have hweak : ¬ 1 < kind.strength := fun h =>
        hnot ⟨kind, hmem, (strength_iff kind).1.mpr h⟩
      obtain ⟨below, hbelow, hstrong⟩ : ∃ below, (other.1, below) ∈ pairs ∧ 1 < below.strength := by
        rcases mem_toAdd_iff.mp hother with ⟨h, -⟩ | ⟨h, -⟩ | ⟨h, -⟩
        · obtain ⟨⟨below, hbelow, hwrite⟩, -⟩ := mem_writeLeaves_iff.mp h
          exact ⟨below, hbelow, (strength_iff below).1.mp hwrite⟩
        · exact absurd hlt ((mem_mutBorrowLeaves_iff.mp h).2.2 leaf.1 ⟨kind, hmem, hkind⟩)
        · exact absurd hlt ((mem_readLeaves_iff.mp h).2.2 leaf.1 ⟨kind, hmem, rfl⟩)
      refine ⟨(leaf.1, kind), hmem, (other.1, below), hbelow, hpre, hlt.ne, by
        change kind.strength < below.strength
        omega, ?_⟩
      rintro ⟨above, aboveKind⟩ habove hle
      by_contra hmore
      have hpos := (strength_iff kind).2.mp hkind
      have hwrite : aboveKind.isWriteAccess = true := by
        refine (strength_iff aboveKind).1.mpr ?_
        dsimp only at hmore
        omega
      rcases eq_or_lt_of_le (isPrefix_iff.mp hle) with heq | hlt'
      · dsimp only at heq
        exact hnot ⟨aboveKind, heq ▸ habove, hwrite⟩
      · exact htop above ⟨aboveKind, habove,
          PlaceAccessKind.isMutAccess_of_isWriteAccess hwrite⟩ hlt'
    · obtain ⟨⟨kind, hmem, -⟩, hnot, htop⟩ := mem_readLeaves_iff.mp hread
      have hweak : ¬ 0 < kind.strength := fun h =>
        hnot ⟨kind, hmem, (strength_iff kind).2.mpr h⟩
      obtain ⟨below, hbelow, hstrong⟩ : ∃ below, (other.1, below) ∈ pairs ∧ 0 < below.strength := by
        rcases mem_toAdd_iff.mp hother with ⟨h, -⟩ | ⟨h, -⟩ | ⟨h, -⟩
        · obtain ⟨⟨below, hbelow, hwrite⟩, -⟩ := mem_writeLeaves_iff.mp h
          exact ⟨below, hbelow, Nat.lt_of_succ_lt ((strength_iff below).1.mp hwrite)⟩
        · obtain ⟨⟨below, hbelow, hborrow⟩, -⟩ := mem_mutBorrowLeaves_iff.mp h
          exact ⟨below, hbelow, (strength_iff below).2.mp hborrow⟩
        · exact absurd hlt ((mem_readLeaves_iff.mp h).2.2 leaf.1 ⟨kind, hmem, rfl⟩)
      refine ⟨(leaf.1, kind), hmem, (other.1, below), hbelow, hpre, hlt.ne, by
        change kind.strength < below.strength
        omega, ?_⟩
      rintro ⟨above, aboveKind⟩ habove hle
      by_contra hmore
      rcases eq_or_lt_of_le (isPrefix_iff.mp hle) with heq | hlt'
      · dsimp only at heq
        exact hnot ⟨aboveKind, heq ▸ habove, (strength_iff aboveKind).2.mpr
          (Nat.lt_of_le_of_lt (Nat.zero_le _) (Nat.lt_of_not_le hmore))⟩
      · exact htop above ⟨aboveKind, habove, rfl⟩ hlt'
  · rintro ⟨⟨place, kind⟩, hmem, ⟨below, belowKind⟩, hbelow, hpre, hne, hmore, hnone⟩
    have hlt : place < below := lt_of_le_of_ne (isPrefix_iff.mp hpre) hne
    have hnone' : ∀ kinds : PlaceAccessKind → Bool,
        (∀ other, kinds other = true → kind.strength < other.strength) →
        ∀ above, Accessed pairs kinds above → ¬ above ≤ place := by
      rintro kinds hkinds above ⟨aboveKind, habove, hkind⟩ hle
      exact absurd (hkinds aboveKind hkind)
        (Nat.not_lt.mpr (hnone (above, aboveKind) habove (isPrefix_iff.mpr hle)))
    -- a leaf above the lower place lies below the upper one
    have hbetween : ∀ top, top ≤ below → ¬ top ≤ place → place < top := by
      intro top htop hnot
      rcases le_or_le_of_le htop hlt.le with h | h
      · exact absurd h hnot
      · exact lt_of_le_of_ne h fun heq => hnot heq.ge
    by_cases hborrow : 0 < kind.strength
    · have hnoWrite := hnone' (·.isWriteAccess) fun other hother => by
        have := (strength_iff other).1.mp hother
        have := belowKind.strength_le
        dsimp only at hmore
        omega
      have hwriteBelow : Accessed pairs (·.isWriteAccess) below :=
        ⟨belowKind, hbelow, (strength_iff belowKind).1.mpr (by
          dsimp only at hmore
          omega)⟩
      obtain ⟨lower, hlower, hlowerTop⟩ := exists_topmost hwriteBelow
      obtain ⟨upper, hupper, hupperTop⟩ := exists_topmost
        (⟨kind, hmem, (strength_iff kind).2.mpr hborrow⟩ : Accessed pairs (·.isMutAccess) place)
      refine ⟨(upper, .writeContents), mem_toAdd_iff.mpr (.inr (.inl ⟨?_, rfl⟩)),
        (lower, .writeNode), mem_toAdd_iff.mpr (.inl ⟨?_, rfl⟩), ?_⟩
      · exact mem_mutBorrowLeaves_iff.mpr ⟨hupperTop.1,
          fun hwrite => hnoWrite upper hwrite hupper, hupperTop.2⟩
      · exact mem_writeLeaves_iff.mpr hlowerTop
      · exact hupper.trans_lt (hbetween lower hlower (hnoWrite lower hlowerTop.1))
    · have hnoMut := hnone' (·.isMutAccess) fun other hother => by
        have := (strength_iff other).2.mp hother
        omega
      have hmutBelow : Accessed pairs (·.isMutAccess) below :=
        ⟨belowKind, hbelow, (strength_iff belowKind).2.mpr (by
          dsimp only at hmore
          omega)⟩
      obtain ⟨upper, hupper, hupperTop⟩ := exists_topmost
        (⟨kind, hmem, rfl⟩ : Accessed pairs (fun _ => true) place)
      have hread : upper ∈ (leavesOf pairs).readLeaves := mem_readLeaves_iff.mpr
        ⟨hupperTop.1, fun hmut => hnoMut upper hmut hupper, hupperTop.2⟩
      obtain ⟨lower, hlower, hlowerTop⟩ := exists_topmost hmutBelow
      have hlt' := hupper.trans_lt (hbetween lower hlower (hnoMut lower hlowerTop.1))
      refine ⟨(upper, .read), mem_toAdd_iff.mpr (.inr (.inr ⟨hread, rfl⟩)), ?_⟩
      by_cases hwrite : Accessed pairs (·.isWriteAccess) lower
      · refine ⟨(lower, .writeNode), mem_toAdd_iff.mpr (.inl ⟨?_, rfl⟩), hlt'⟩
        exact mem_writeLeaves_iff.mpr ⟨hwrite, fun above habove =>
          hlowerTop.2 above (habove.mono fun _ =>
            PlaceAccessKind.isMutAccess_of_isWriteAccess)⟩
      · refine ⟨(lower, .writeContents), mem_toAdd_iff.mpr (.inr (.inl ⟨?_, rfl⟩)), hlt'⟩
        exact mem_mutBorrowLeaves_iff.mpr ⟨hlowerTop.1, hwrite, hlowerTop.2⟩

/-- The permissions of the loop invariant are those that the accesses ask for, without a
failed assertion, exactly when no access is made below one that asks for less (unless the
upper place or one above it is accessed with a stronger kind as well). -/
theorem invariantPermissions_grant_iff {types : PlaceTypes Ty} {allPlaces : Finset (Place Ty)}
    {order : List (Place Ty)} (hplaces : computeAllPlaces types (leavesOf pairs) = some allPlaces)
    (hnodup : order.Nodup) (horder : order.toFinset = allPlaces)
    (hvec : ∀ leaf ∈ (leavesOf pairs).toAdd, (vecPlace types leaf.1).isSome) :
    (∃ permissions, invariantPermissions types (leavesOf pairs) order = some permissions ∧
      GrantsLeaves (leavesOf pairs) permissions) ↔ GradedAccesses pairs := by
  subst horder
  obtain ⟨hinvariant, hcovers⟩ := computeAllPlaces_spec hplaces
  rw [PlaceSet.checkInvariant_iff] at hinvariant
  have haddable : ∀ leaf ∈ (leavesOf pairs).toAdd, Addable types order leaf.1 := by
    intro leaf hleaf
    have hmem : leaf.1 ∈ (leavesOf pairs).writeLeaves ++ (leavesOf pairs).mutBorrowLeaves ++
        (leavesOf pairs).readLeaves := by
      simp only [List.mem_append]
      rcases mem_toAdd_iff.mp hleaf with ⟨h, -⟩ | ⟨h, -⟩ | ⟨h, -⟩
      · exact .inl (.inl h)
      · exact .inl (.inr h)
      · exact .inr h
    refine ⟨hvec leaf hleaf, computePlacesToAdd_eq hnodup ?_ ?_⟩
    · intro x hx y hy
      exact hinvariant x (List.mem_toFinset.mpr hx) y (List.mem_toFinset.mpr hy)
    · obtain ⟨above, habove, hle⟩ := hcovers leaf.1 hmem
      exact ⟨above, List.mem_toFinset.mp habove, hle⟩
  have hempty : WellRooted ([] : List (PermissionNode Ty)) :=
    ⟨fun _ h => absurd h List.not_mem_nil, fun _ h => absurd h List.not_mem_nil, List.nodup_nil⟩
  have hnil : History ([] : List (Leaf Ty)) (forestKind []) := History.nil
  rw [← not_iff_not.mpr hasShadow_toAdd_iff |>.trans not_not]
  constructor
  · rintro ⟨permissions, hpermissions, hgrants⟩ ⟨leaf, hleaf, other, hother, hlt⟩
    simp only [invariantPermissions, new_eq_foldlM, Option.bind_eq_bind,
      Option.bind_eq_some_iff] at hpermissions
    obtain ⟨trees, htrees, hpermissions⟩ := hpermissions
    obtain ⟨hrooted, hhistory⟩ := history_of_foldlM hempty hnil haddable addedUpwards_toAdd htrees
    obtain ⟨permissions', hpermissions', hmem⟩ := exists_permissions hrooted hhistory
    cases hpermissions'.symm.trans hpermissions
    have hno : ¬ GrantsSubtree permissions PermissionKind.readsSubtree leaf.1 := by
      rintro ⟨permission, hpermission, hkind, hle⟩
      obtain ⟨tree, htree, node, hnode, hgives⟩ := (hmem permission).mp hpermission
      exact lowest_of_gives hrooted hhistory htree hnode hgives hkind other hother
        (hle.trans_lt hlt)
    have hwrites : GrantsSubtree permissions PermissionKind.writesSubtree leaf.1 →
        GrantsSubtree permissions PermissionKind.readsSubtree leaf.1 := by
      rintro ⟨permission, hpermission, hkind, hle⟩
      exact ⟨permission, hpermission, PermissionKind.readsSubtree_of_writesSubtree hkind, hle⟩
    rcases mem_toAdd_iff.mp hleaf with ⟨h, -⟩ | ⟨h, -⟩ | ⟨h, -⟩
    · exact hno (hwrites (hgrants.write _ h))
    · exact hno (hwrites (hgrants.mutBorrow _ h))
    · exact hno (hgrants.read _ h)
  · intro hshadow
    obtain ⟨trees, htrees⟩ := exists_foldlM hempty hnil haddable addedUpwards_toAdd hshadow
    obtain ⟨hrooted, hhistory⟩ := history_of_foldlM hempty hnil haddable addedUpwards_toAdd htrees
    obtain ⟨permissions, hpermissions, hmem⟩ := exists_permissions hrooted hhistory
    have hleaf : ∀ leaf ∈ (leavesOf pairs).toAdd, _ := fun leaf hleaf =>
      exists_subtree_permission hhistory hmem hleaf fun other hother hlt =>
        hshadow ⟨leaf, hleaf, other, hother, hlt⟩
    refine ⟨permissions, ?_, ?_, ?_, ?_, ?_⟩
    · simp only [invariantPermissions, new_eq_foldlM, htrees, Option.bind_eq_bind, Option.bind_some]
      exact hpermissions
    · intro place hplace
      exact (hleaf (place, .writeNode) (mem_toAdd_iff.mpr (.inl ⟨hplace, rfl⟩))).2.2 rfl
    · intro place hplace
      exact (hleaf (place, .writeNode) (mem_toAdd_iff.mpr (.inl ⟨hplace, rfl⟩))).2.1 rfl
    · intro place hplace
      exact (hleaf (place, .writeContents) (mem_toAdd_iff.mpr (.inr (.inl ⟨hplace, rfl⟩)))).2.1 rfl
    · intro place hplace
      exact (hleaf (place, .read) (mem_toAdd_iff.mpr (.inr (.inr ⟨hplace, rfl⟩)))).1

end Granted

namespace Witness

/-- The local is a structure with two fields, whose type is `true`. -/
def pairTypes : PlaceTypes Bool where
  placeTy place := ⟨place.projection = [], none⟩
  kind isPair := if isPair then .adt true none [false, false] else .other

def pair : Place Bool := Place.ofLocal 1

def firstField : Place Bool := pair.project (.field 0 false)

/-- In the loop a structure is borrowed mutably and its first field is assigned: adding
the structure to the tree of its field fails. -/
theorem invariantPermissions_fail_pair :
    leavesOf [(pair, .mutableBorrow), (firstField, .store)] = ⟨[firstField], [pair], []⟩ ∧
      computeAllPlaces pairTypes ⟨[firstField], [pair], []⟩ = some {pair} ∧
      invariantPermissions pairTypes ⟨[firstField], [pair], []⟩ [pair] = none := by
  refine ⟨rfl, by decide, rfl⟩

/-- The first field is read and the second one assigned. -/
theorem invariantPermissions_grant_iff_fields :
    (∃ permissions, invariantPermissions pairTypes
        (leavesOf [(firstField, .read), (pair.project (.field 1 false), .store)])
        [pair] = some permissions ∧
      GrantsLeaves (leavesOf [(firstField, .read), (pair.project (.field 1 false), .store)])
        permissions) ↔
      GradedAccesses [(firstField, .read), (pair.project (.field 1 false), .store)] :=
  invariantPermissions_grant_iff (show computeAllPlaces pairTypes (leavesOf
    [(firstField, .read), (pair.project (.field 1 false), .store)]) = some {pair} by decide)
    (by decide) (by decide) (by decide)

end Witness

end Prusti.LoopInvariant

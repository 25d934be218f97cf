/-
What the operations on permission trees do to the kinds of the nodes, and which
permissions a tree gives.
-/
import Prusti.LoopInvariant.PermissionForest

namespace Prusti.LoopInvariant

open Prusti.Mir

universe u

variable {Ty : Type u}

namespace PermissionNode

section

variable (place : Place Ty) (kind : PermissionKind) (children : List (PermissionNode Ty))

@[simp] theorem place_ownedNode : (ownedNode place kind children).place = place := rfl

@[simp] theorem kind_ownedNode : (ownedNode place kind children).kind = kind := rfl

@[simp] theorem children_ownedNode :
    (ownedNode place kind children).children = children := rfl

end

/-- A node of a tree. -/
def InTree (root node : PermissionNode Ty) : Prop :=
  Relation.ReflTransGen (fun parent child => child ∈ parent.children) root node

/-- The children of a node are places one level below, each at most once. -/
inductive WellPlaced : PermissionNode Ty → Prop where
  | intro {node : PermissionNode Ty} :
      (∀ child ∈ node.children, ∃ elem, child.place = node.place.project elem) →
      (node.children.map place).Nodup →
      (∀ child ∈ node.children, WellPlaced child) → WellPlaced node

theorem size_eq (node : PermissionNode Ty) : node.size = sizes node.children + 1 := by
  obtain ⟨place, kind, children⟩ := node
  rfl

theorem sizes_append (nodes others : List (PermissionNode Ty)) :
    sizes (nodes ++ others) = sizes nodes + sizes others := by
  induction nodes with
  | nil => simp [sizes]
  | cons node nodes ih => simp [sizes, ih, Nat.add_assoc]

theorem sizes_reverse (nodes : List (PermissionNode Ty)) : sizes nodes.reverse = sizes nodes := by
  induction nodes with
  | nil => rfl
  | cons node nodes ih => simp [sizes, sizes_append, ih, Nat.add_comm]

@[simp] theorem place_setPermissionKind (kind : PermissionKind) (node : PermissionNode Ty) :
    (node.setPermissionKind kind).place = node.place := by
  cases node
  rfl

@[simp] theorem kind_setPermissionKind (kind : PermissionKind) (node : PermissionNode Ty) :
    (node.setPermissionKind kind).kind = kind := by
  cases node
  rfl

@[simp] theorem children_setPermissionKind (kind : PermissionKind) (node : PermissionNode Ty) :
    (node.setPermissionKind kind).children = node.children := by
  cases node
  rfl

theorem WellPlaced.setPermissionKind {node : PermissionNode Ty} (h : node.WellPlaced)
    (kind : PermissionKind) : (node.setPermissionKind kind).WellPlaced := by
  obtain ⟨hplace, hnodup, hchildren⟩ := h
  constructor
  · simpa using hplace
  · simpa using hnodup
  · simpa using hchildren

variable [DecidableEq Ty] {node : PermissionNode Ty} {component target : Place Ty}
  {kind : PermissionKind} {update : PermissionNode Ty → PermissionNode Ty}
  {children : List (PermissionNode Ty)}

/-- The kind of the node that is found along the components, if there is one. -/
def kindAt : PermissionNode Ty → List (Place Ty) → Option PermissionKind
  | node, [] => some node.kind
  | node, component :: rest =>
    (node.children.find? fun child => child.place = component).bind fun child =>
      child.kindAt rest

theorem kindAt_nil : node.kindAt [] = some node.kind := rfl

@[simp] theorem place_getOrCreateChild :
    (getOrCreateChild component kind update node).place = node.place := by
  cases node
  rfl

@[simp] theorem kind_getOrCreateChild :
    (getOrCreateChild component kind update node).kind = node.kind := by
  cases node
  rfl

@[simp] theorem children_getOrCreateChild :
    (getOrCreateChild component kind update node).children =
      updateChildren component kind update node.children := by
  cases node
  rfl

/-- The child that gets updated. -/
def foundChild (component : Place Ty) (kind : PermissionKind)
    (children : List (PermissionNode Ty)) : PermissionNode Ty :=
  (children.find? fun child => child.place = component).getD (ownedNode component kind [])

theorem place_foundChild : (foundChild component kind children).place = component := by
  unfold foundChild
  cases hfind : children.find? fun child => child.place = component with
  | none => rfl
  | some child =>
    have hplace := List.find?_some hfind
    exact of_decide_eq_true hplace

theorem find?_updateChildren (hupdate : ∀ child, (update child).place = child.place) :
    (updateChildren component kind update children).find? (fun child => child.place = target) =
      if target = component then some (update (foundChild component kind children))
      else children.find? fun child => child.place = target := by
  induction children with
  | nil =>
    by_cases htarget : target = component
    · simp [updateChildren, foundChild, hupdate, htarget]
    · simp [updateChildren, hupdate, htarget, Ne.symm htarget]
  | cons child children ih =>
    rw [updateChildren]
    by_cases hplace : child.place = component
    · rw [if_pos hplace]
      by_cases htarget : target = component
      · simp [foundChild, hupdate, hplace, htarget]
      · have hne : ¬ child.place = target := fun h => htarget (h.symm.trans hplace)
        simp [hupdate, hne, htarget]
    · rw [if_neg hplace]
      by_cases hfound : child.place = target
      · have hne : target ≠ component := fun h => hplace (hfound.trans h)
        simp [hfound, hne]
      · rw [List.find?_cons_of_neg (by simpa using hfound), ih,
          List.find?_cons_of_neg (by simpa using hfound)]
        have hsame : foundChild component kind (child :: children) =
            foundChild component kind children := by
          rw [foundChild, List.find?_cons_of_neg (by simpa using hplace), foundChild]
        rw [hsame]

theorem map_place_updateChildren (hupdate : ∀ child, (update child).place = child.place) :
    (updateChildren component kind update children).map place =
      if component ∈ children.map place then children.map place
      else children.map place ++ [component] := by
  induction children with
  | nil => simp [updateChildren, hupdate]
  | cons child children ih =>
    rw [updateChildren]
    by_cases hplace : child.place = component
    · simp [hplace, hupdate]
    · rw [if_neg hplace, List.map_cons, ih, List.map_cons]
      have hmem : component ∈ child.place :: children.map place ↔
          component ∈ children.map place := by
        rw [List.mem_cons]
        exact or_iff_right (Ne.symm hplace)
      simp only [hmem]
      split <;> rfl

theorem mem_updateChildren {child : PermissionNode Ty}
    (h : child ∈ updateChildren component kind update children) :
    child ∈ children ∨ child = update (foundChild component kind children) := by
  induction children with
  | nil => exact .inr (List.mem_singleton.mp h)
  | cons first children ih =>
    rw [updateChildren] at h
    by_cases hplace : first.place = component
    · rw [if_pos hplace] at h
      rcases List.mem_cons.mp h with rfl | h
      · right
        rw [foundChild, List.find?_cons_of_pos (by simpa using hplace)]
        rfl
      · exact .inl (List.mem_cons_of_mem _ h)
    · rw [if_neg hplace] at h
      have hsame : foundChild component kind (first :: children) =
          foundChild component kind children := by
        rw [foundChild, List.find?_cons_of_neg (by simpa using hplace), foundChild]
      rcases List.mem_cons.mp h with rfl | h
      · exact .inl List.mem_cons_self
      · rw [hsame]
        exact (ih h).imp_left (List.mem_cons_of_mem _)

theorem wellPlaced_foundChild (h : ∀ child ∈ children, WellPlaced child) :
    (foundChild component kind children).WellPlaced := by
  unfold foundChild
  cases hfind : children.find? fun child => child.place = component with
  | none =>
    constructor
    · exact fun _ hchild => absurd hchild List.not_mem_nil
    · exact List.nodup_nil
    · exact fun _ hchild => absurd hchild List.not_mem_nil
  | some child => exact h child (List.mem_of_find?_eq_some hfind)

/-- A child one level below can be created and changed. -/
theorem WellPlaced.getOrCreateChild (h : node.WellPlaced)
    (hupdate : ∀ child, (update child).place = child.place)
    (hcomponent : ∃ elem, component = node.place.project elem)
    (hwell : (update (foundChild component kind node.children)).WellPlaced) :
    (getOrCreateChild component kind update node).WellPlaced := by
  obtain ⟨hplace, hnodup, hchildren⟩ := h
  constructor
  · rw [children_getOrCreateChild, place_getOrCreateChild]
    intro child hchild
    rcases mem_updateChildren hchild with hold | rfl
    · exact hplace child hold
    · rwa [hupdate, place_foundChild]
  · rw [children_getOrCreateChild, map_place_updateChildren hupdate]
    split
    · exact hnodup
    · next hnew =>
        rw [← List.concat_eq_append]
        exact hnodup.concat hnew
  · rw [children_getOrCreateChild]
    intro child hchild
    rcases mem_updateChildren hchild with hold | rfl
    · exact hchildren child hold
    · exact hwell

theorem kindAt_getOrCreateChild (hupdate : ∀ child, (update child).place = child.place)
    {rest : List (Place Ty)} :
    (getOrCreateChild component kind update node).kindAt (target :: rest) =
      if target = component then (update (foundChild component kind node.children)).kindAt rest
      else node.kindAt (target :: rest) := by
  rw [kindAt, children_getOrCreateChild, find?_updateChildren hupdate]
  split
  · rfl
  · rw [kindAt]

/-- What is found below a child that may have to be created. -/
theorem kindAt_foundChild {rest : List (Place Ty)} (hrest : rest ≠ []) :
    (foundChild component kind node.children).kindAt rest = node.kindAt (component :: rest) := by
  rw [kindAt, foundChild]
  cases node.children.find? fun child => child.place = component with
  | some child => rfl
  | none =>
    cases rest with
    | nil => exact absurd rfl hrest
    | cons first rest => rfl

theorem kind_foundChild :
    (foundChild component kind node.children).kind = (node.kindAt [component]).getD kind := by
  rw [kindAt, foundChild]
  cases node.children.find? fun child => child.place = component with
  | some child => rfl
  | none => rfl

end PermissionNode

namespace PermissionTree

open PermissionNode

/-- A tree with one leaf, where the nodes above the leaf are read. -/
def chain (leafKind : PermissionKind) : Place Ty → List (Place Ty) → PermissionNode Ty
  | base, [] => .ownedNode base leafKind []
  | base, next :: rest => .ownedNode base .readNode [chain leafKind next rest]

theorem place_chain {leafKind : PermissionKind} {base : Place Ty} {path : List (Place Ty)} :
    (chain leafKind base path).place = base := by
  cases path <;> rfl

theorem wellPlaced_chain {leafKind : PermissionKind} {base : Place Ty}
    {elems : List (ProjectionElem Ty)} :
    (chain leafKind base (pathFrom base elems)).WellPlaced := by
  induction elems generalizing base with
  | nil =>
    constructor
    · exact fun _ hchild => absurd hchild List.not_mem_nil
    · exact List.nodup_nil
    · exact fun _ hchild => absurd hchild List.not_mem_nil
  | cons elem elems ih =>
    constructor
    · intro child hchild
      rw [List.mem_singleton.mp hchild, place_chain]
      exact ⟨elem, rfl⟩
    · exact List.nodup_singleton _
    · intro child hchild
      rw [List.mem_singleton.mp hchild]
      exact ih

variable [DecidableEq Ty] {node : PermissionNode Ty} {targetType : TargetType}

variable {components : List (Place Ty)}

@[simp] theorem place_addComponents :
    (addComponents targetType components node).place = node.place := by
  match components with
  | [] => rfl
  | [component] => exact place_getOrCreateChild
  | component :: next :: components => exact place_getOrCreateChild

@[simp] theorem kind_addComponents :
    (addComponents targetType components node).kind = node.kind := by
  match components with
  | [] => rfl
  | [component] => exact kind_getOrCreateChild
  | component :: next :: components => exact kind_getOrCreateChild

/-- The kind that a node on the way gets. -/
def wayKind (targetType : TargetType) (old : Option PermissionKind) : PermissionKind :=
  if targetType.isWrite then .writeNode else old.getD .readNode

/-- The kinds of the nodes after an addition: a new leaf, and the nodes on the way. -/
theorem kindAt_addComponents {path : List (Place Ty)} :
    (addComponents targetType components node).kindAt path =
      if path ≠ [] ∧ path <+: components then
        if path = components then
          some ((node.kindAt path).getD targetType.toPermissionKind)
        else some (wayKind targetType (node.kindAt path))
      else node.kindAt path := by
  induction components generalizing node path with
  | nil =>
    rw [addComponents, if_neg]
    rintro ⟨hne, hpre⟩
    exact hne (List.prefix_nil.mp hpre)
  | cons component components ih =>
    cases path with
    | nil =>
      rw [if_neg (fun h => h.1 rfl), kindAt, kindAt]
      cases components with
      | nil => rw [addComponents, kind_getOrCreateChild]
      | cons next components => rw [addComponents, kind_getOrCreateChild]
    | cons first rest =>
      simp only [ne_eq, List.cons_ne_nil, not_false_eq_true, true_and, List.cons_prefix_cons,
        List.cons.injEq]
      cases components with
      | nil =>
        rw [addComponents, kindAt_getOrCreateChild fun _ => rfl]
        by_cases hfirst : first = component
        · subst hfirst
          cases rest with
          | nil => simp [kindAt, kind_foundChild]
          | cons second rest => simp [kindAt_foundChild]
        · simp [hfirst]
      | cons next components =>
        rw [addComponents, kindAt_getOrCreateChild (by intro child; split <;> simp)]
        by_cases hfirst : first = component
        · subst hfirst
          cases rest with
          | nil =>
            have hkind : (foundChild first .readNode node.children).kind = _ := kind_foundChild
            cases hwrite : targetType.isWrite with
            | true => simp [kindAt, wayKind, hwrite]
            | false => simp [kindAt_nil, wayKind, hwrite, hkind]
          | cons second rest =>
            have hsame : (if targetType.isWrite = true then
                (foundChild first PermissionKind.readNode node.children).setPermissionKind
                  .writeNode
              else foundChild first .readNode node.children).kindAt (second :: rest) =
                node.kindAt (first :: second :: rest) := by
              rw [← @kindAt_foundChild _ _ node first .readNode _ (List.cons_ne_nil _ _)]
              split
              · simp [kindAt]
              · rfl
            simp [ih, hsame]
        · simp [hfirst]

theorem wellPlaced_addComponents {elems : List (ProjectionElem Ty)} (h : node.WellPlaced) :
    (addComponents targetType (pathFrom node.place elems) node).WellPlaced := by
  induction elems generalizing node with
  | nil => exact h
  | cons elem elems ih =>
    have hchildren : ∀ child ∈ node.children, child.WellPlaced := by
      obtain ⟨-, -, hchildren⟩ := h
      exact hchildren
    cases elems with
    | nil => exact h.getOrCreateChild (fun _ => rfl) ⟨elem, rfl⟩ (wellPlaced_foundChild hchildren)
    | cons next elems =>
      refine h.getOrCreateChild (by intro child; split <;> simp) ⟨elem, rfl⟩ ?_
      have hplace : ∀ child : PermissionNode Ty, child.place = node.place.project elem →
          child.WellPlaced → (addComponents targetType
            (pathFrom (node.place.project elem) (next :: elems)) child).WellPlaced := by
        intro child hplace hwell
        rw [← hplace]
        exact ih hwell
      split
      · exact hplace _ (by rw [place_setPermissionKind, place_foundChild])
          ((wellPlaced_foundChild hchildren).setPermissionKind _)
      · exact hplace _ place_foundChild (wellPlaced_foundChild hchildren)

theorem wrapComponents_chain {leafKind : PermissionKind} {target last head : Place Ty}
    {above rest tail : List (Place Ty)} (h : above.reverse ++ last :: rest = head :: tail) :
    wrapComponents target (chain leafKind last rest) .readNode above =
      chain leafKind head tail := by
  induction above generalizing last rest with
  | nil =>
    cases h
    rfl
  | cons component above ih =>
    rw [List.reverse_cons, List.append_assoc] at h
    rw [wrapComponents, ite_self]
    exact ih h

theorem kindAt_chain {leafKind : PermissionKind} {base : Place Ty} {path : List (Place Ty)} :
    (chain leafKind base components).kindAt path =
      if path <+: components then
        some (if path = components then leafKind else .readNode)
      else none := by
  induction components generalizing base path with
  | nil =>
    cases path with
    | nil => simp [chain, kindAt]
    | cons first rest => simp [chain, kindAt]
  | cons component components ih =>
    cases path with
    | nil => simp [chain, kindAt]
    | cons first rest =>
      by_cases hfirst : first = component
      · simp [chain, kindAt, place_chain, ih, hfirst]
      · simp [chain, kindAt, place_chain, hfirst, Ne.symm hfirst]

/-- A new tree for a place that is its own target. -/
theorem new_eq {types : PlaceTypes Ty} {place : Place Ty}
    (hplace : (vecPlace types place).isSome) (hlast : (Place.ofLocal place.local ::
      pathOf place).getLast? = some place) :
    new types place place targetType =
      some (chain targetType.toPermissionKind (Place.ofLocal place.local) (pathOf place)) := by
  obtain ⟨components, hcomponents⟩ := Option.isSome_iff_exists.mp hplace
  have heq := vecPlace_eq hcomponents
  obtain ⟨above, habove⟩ : ∃ above, components.reverse = place :: above := by
    rw [← heq] at hlast
    obtain ⟨front, rfl⟩ := List.getLast?_eq_some_iff.mp hlast
    exact ⟨front.reverse, by simp⟩
  rw [new, hcomponents]
  simp only [Option.bind_eq_bind, Option.bind_some, habove, decide_true, Bool.true_or, if_true]
  have hcomponents' : above.reverse ++ [place] = Place.ofLocal place.local :: pathOf place := by
    rw [← heq, ← List.reverse_reverse components, habove, List.reverse_cons]
  exact congrArg some (wrapComponents_chain hcomponents')

/-- Adding a place to a tree. -/
theorem add_eq {types : PlaceTypes Ty} {place : Place Ty} (hplace : (vecPlace types place).isSome) :
    add types node place targetType =
      if pathOf place = [] then if targetType.isWrite then none else some node
      else some (addComponents targetType (pathOf place) node) := by
  obtain ⟨components, hcomponents⟩ := Option.isSome_iff_exists.mp hplace
  rw [add, hcomponents, vecPlace_eq hcomponents]
  cases pathOf place with
  | nil => rfl
  | cons first rest => rfl

end PermissionTree

namespace PermissionNode

variable [DecidableEq Ty] {root node : PermissionNode Ty}

theorem find?_of_mem {children : List (PermissionNode Ty)} {child : PermissionNode Ty}
    (hnodup : (children.map place).Nodup) (hchild : child ∈ children) :
    (children.find? fun other => other.place = child.place) = some child := by
  induction children with
  | nil => cases hchild
  | cons first children ih =>
    rw [List.map_cons, List.nodup_cons] at hnodup
    rcases List.mem_cons.mp hchild with rfl | hchild
    · exact List.find?_cons_of_pos (by simp)
    · have hne : first.place ≠ child.place := by
        intro heq
        exact hnodup.1 (heq ▸ List.mem_map_of_mem hchild)
      rw [List.find?_cons_of_neg (by simpa using hne)]
      exact ih hnodup.2 hchild

/-- A node is found along the projections below the root. -/
theorem kindAt_of_inTree (hroot : root.WellPlaced) (h : InTree root node) :
    ∃ elems, node.place = ⟨root.place.local, root.place.projection ++ elems⟩ ∧
      root.kindAt (pathFrom root.place elems) = some node.kind := by
  induction h using Relation.ReflTransGen.head_induction_on with
  | refl => exact ⟨[], by rw [List.append_nil], rfl⟩
  | @head root child hchild _ ih =>
    obtain ⟨hplace, hnodup, hchildren⟩ := hroot
    obtain ⟨elems, hnode, hkind⟩ := ih (hchildren child hchild)
    obtain ⟨elem, helem⟩ := hplace child hchild
    refine ⟨elem :: elems, ?_, ?_⟩
    · rw [hnode, helem]
      simp
    · rw [pathFrom, ← helem, kindAt, find?_of_mem hnodup hchild]
      exact hkind

/-- What is found along the projections is a node, and the child of one unless it is the
root. -/
theorem exists_inTree_of_kindAt {elems : List (ProjectionElem Ty)} {kind : PermissionKind}
    (h : root.kindAt (pathFrom root.place elems) = some kind) :
    ∃ node, InTree root node ∧ node.kind = kind ∧
      node.place = ⟨root.place.local, root.place.projection ++ elems⟩ ∧
      (elems ≠ [] → ∃ parent, InTree root parent ∧ node ∈ parent.children) := by
  induction elems generalizing root with
  | nil =>
    refine ⟨root, .refl, Option.some.inj h, by rw [List.append_nil], ?_⟩
    exact fun hne => absurd rfl hne
  | cons elem elems ih =>
    rw [pathFrom, kindAt, Option.bind_eq_some_iff] at h
    obtain ⟨child, hfind, hkind⟩ := h
    have hchild := List.mem_of_find?_eq_some hfind
    have hplace : child.place = root.place.project elem := by
      have := List.find?_some hfind
      exact of_decide_eq_true this
    rw [← hplace] at hkind
    obtain ⟨node, hnode, hnodeKind, hnodePlace, hparent⟩ := ih hkind
    refine ⟨node, .head hchild hnode, hnodeKind, ?_, fun _ => ?_⟩
    · rw [hnodePlace, hplace]
      simp
    · by_cases helems : elems = []
      · subst helems
        rcases Relation.ReflTransGen.cases_tail hnode with rfl | ⟨parent, hparent, hmem⟩
        · exact ⟨root, .refl, hchild⟩
        · exact ⟨parent, .head hchild hparent, hmem⟩
      · obtain ⟨parent, hinTree, hmem⟩ := hparent helems
        exact ⟨parent, .head hchild hinTree, hmem⟩

end PermissionNode

end Prusti.LoopInvariant

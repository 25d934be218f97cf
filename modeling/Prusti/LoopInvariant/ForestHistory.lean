/-
The permission forest of a loop invariant gives the permissions that were asked for, unless
a leaf lies below a leaf of a weaker kind.
-/
import Prusti.LoopInvariant.GrantedPermissions

namespace Prusti.LoopInvariant

open Prusti.Lib Prusti.Mir Prusti.Analysis PermissionNode

universe u

variable {Ty : Type u}

/-- What adding a place does to the kinds: there is a leaf unless there was a node before,
and the places above get inner nodes. -/
structure AddStep (targetType : TargetType) (added : Place Ty)
    (before after : Place Ty → Option PermissionKind) : Prop where
  other : ∀ x, ¬ x ≤ added → after x = before x
  leaf : after added = some ((before added).getD targetType.toPermissionKind)
  above : ∀ x, x < added → after x = some .readNode ∨ after x = some .writeNode ∨
    (after x = before x ∧ (before x).isSome)

/-- A place with what is wanted there. -/
abbrev Leaf (Ty : Type u) := Place Ty × TargetType

/-- The kinds after some leaves were added one after the other, none of them at or below an
earlier one. -/
structure History (leaves : List (Leaf Ty)) (kindOf : Place Ty → Option PermissionKind) : Prop where
  domain : ∀ x, (kindOf x).isSome ↔ ∃ leaf ∈ leaves, x ≤ leaf.1
  inner : ∀ x kind, kindOf x = some kind → kind = .readNode ∨ kind = .writeNode ∨
    ∃ targetType, (x, targetType) ∈ leaves ∧ kind = targetType.toPermissionKind
  /-- A leaf with nothing below it has the kind that is wanted. -/
  lowest : ∀ leaf ∈ leaves, (∀ other ∈ leaves, ¬ leaf.1 < other.1) →
    kindOf leaf.1 = some leaf.2.toPermissionKind
  /-- A leaf above another one stays an inner node. -/
  shadowed : ∀ leaf ∈ leaves, (∃ other ∈ leaves, leaf.1 < other.1) →
    kindOf leaf.1 = some .readNode ∨ kindOf leaf.1 = some .writeNode

namespace History

variable {leaves : List (Leaf Ty)} {before after : Place Ty → Option PermissionKind}
  {added : Leaf Ty}

theorem nil : History ([] : List (Leaf Ty)) (fun _ => none) := by
  constructor <;> simp

theorem step (h : History leaves before) (hstep : AddStep added.2 added.1 before after)
    (hnew : ∀ leaf ∈ leaves, ¬ leaf.1 ≤ added.1) : History (leaves ++ [added]) after := by
  have hold : ∀ leaf ∈ leaves, after leaf.1 = before leaf.1 := fun leaf hleaf =>
    hstep.other leaf.1 (hnew leaf hleaf)
  have hnotMem : ∀ targetType, (added.1, targetType) ∉ leaves := fun _ hmem =>
    hnew _ hmem le_rfl
  constructor
  · intro x
    simp only [List.mem_append, List.mem_singleton, or_and_right, exists_or, exists_eq_left]
    by_cases hx : x ≤ added.1
    · refine iff_of_true ?_ (.inr hx)
      rcases eq_or_lt_of_le hx with rfl | hlt
      · rw [hstep.leaf]
        rfl
      · rcases hstep.above x hlt with hkind | hkind | ⟨hkind, hsome⟩
        · rw [hkind]
          rfl
        · rw [hkind]
          rfl
        · rwa [hkind]
    · rw [hstep.other x hx, h.domain]
      simp [hx]
  · intro x kind hkind
    have hbefore : ∀ kind, before x = some kind → kind = .readNode ∨ kind = .writeNode ∨
        ∃ targetType, (x, targetType) ∈ leaves ++ [added] ∧ kind = targetType.toPermissionKind := by
      intro kind hkind
      refine (h.inner x kind hkind).imp_right (Or.imp_right ?_)
      rintro ⟨targetType, hmem, heq⟩
      exact ⟨targetType, List.mem_append_left _ hmem, heq⟩
    by_cases hx : x ≤ added.1
    · rcases eq_or_lt_of_le hx with rfl | hlt
      · rw [hstep.leaf] at hkind
        cases hold : before added.1 with
        | none =>
          rw [hold] at hkind
          cases hkind
          exact .inr (.inr ⟨added.2, by simp, rfl⟩)
        | some old =>
          rw [hold] at hkind
          cases hkind
          exact hbefore _ hold
      · rcases hstep.above x hlt with h' | h' | ⟨h', -⟩
        · exact .inl (Option.some.inj (hkind.symm.trans h'))
        · exact .inr (.inl (Option.some.inj (hkind.symm.trans h')))
        · exact hbefore kind (h'.symm.trans hkind)
    · exact hbefore kind ((hstep.other x hx).symm.trans hkind)
  · intro leaf hleaf hlowest
    rcases List.mem_append.mp hleaf with hleaf | hleaf
    · rw [hold leaf hleaf]
      exact h.lowest leaf hleaf fun other hother => hlowest other (List.mem_append_left _ hother)
    · rw [List.mem_singleton.mp hleaf, hstep.leaf]
      have hnone : before added.1 = none := by
        rw [← Option.not_isSome_iff_eq_none, h.domain]
        rintro ⟨other, hother, hle⟩
        rcases eq_or_lt_of_le hle with heq | hlt
        · exact hnew other hother heq.ge
        · rw [List.mem_singleton.mp hleaf] at hlowest
          exact hlowest other (List.mem_append_left _ hother) hlt
      rw [hnone]
      rfl
  · rintro leaf hleaf ⟨other, hother, hlt⟩
    rcases List.mem_append.mp hleaf with hleaf | hleaf
    · rw [hold leaf hleaf]
      refine h.shadowed leaf hleaf ⟨other, ?_, hlt⟩
      rcases List.mem_append.mp hother with hother | hother
      · exact hother
      · rw [List.mem_singleton.mp hother] at hlt
        exact absurd hlt.le (hnew leaf hleaf)
    · rw [List.mem_singleton.mp hleaf] at hlt ⊢
      have hother' : other ∈ leaves := by
        rcases List.mem_append.mp hother with hother | hother
        · exact hother
        · rw [List.mem_singleton.mp hother] at hlt
          exact absurd hlt (lt_irrefl _)
      obtain ⟨kind, hkind⟩ := Option.isSome_iff_exists.mp
        ((h.domain added.1).mpr ⟨other, hother', hlt.le⟩)
      rw [hstep.leaf, hkind]
      rcases h.inner _ _ hkind with rfl | rfl | ⟨targetType, hmem, -⟩
      · exact .inl rfl
      · exact .inr rfl
      · exact absurd hmem (hnotMem targetType)

end History

variable [DecidableEq Ty]

/-- The trees of a forest: they have different locals as their roots. -/
structure WellRooted (trees : List (PermissionNode Ty)) : Prop where
  root : ∀ tree ∈ trees, tree.place = Place.ofLocal tree.place.local
  wellPlaced : ∀ tree ∈ trees, tree.WellPlaced
  nodup : (trees.map place).Nodup

/-- The kind of the node of a place, if the forest has one. -/
def forestKind (trees : List (PermissionNode Ty)) (x : Place Ty) : Option PermissionKind :=
  (trees.find? fun tree => tree.place = Place.ofLocal x.local).bind fun tree =>
    tree.kindAt (pathOf x)

section Forest

variable {trees : List (PermissionNode Ty)} {tree : PermissionNode Ty} {x added : Place Ty}
  {targetType : TargetType} {types : PlaceTypes Ty} {allPlaces : List (Place Ty)}

omit [DecidableEq Ty] in
theorem ofLocal_inj {root other : Local} :
    (Place.ofLocal root : Place Ty) = Place.ofLocal other ↔ root = other :=
  ⟨fun h => congrArg (fun place => place.local) h, fun h => h ▸ rfl⟩

theorem WellRooted.isPrefix_root_iff (h : WellRooted trees) (htree : tree ∈ trees) :
    isPrefix x tree.place = true ↔ tree.place = Place.ofLocal x.local := by
  rw [isPrefix_iff, h.root tree htree]
  constructor
  · intro hle
    exact congrArg Place.ofLocal hle.1
  · intro heq
    exact ⟨ofLocal_inj.mp heq, List.nil_prefix⟩

theorem WellRooted.forestKind_eq (h : WellRooted trees) (htree : tree ∈ trees)
    (hroot : tree.place = Place.ofLocal x.local) :
    forestKind trees x = tree.kindAt (pathOf x) := by
  rw [forestKind, ← hroot, find?_of_mem h.nodup htree]
  rfl

theorem forestKind_eq_none (h : ∀ tree ∈ trees, tree.place ≠ Place.ofLocal x.local) :
    forestKind trees x = none := by
  rw [forestKind, List.find?_eq_none.mpr (by simpa using h)]
  rfl

/-- The tree of a local that has none. -/
abbrev newTree (targetType : TargetType) (added : Place Ty) : PermissionNode Ty :=
  PermissionTree.chain targetType.toPermissionKind (Place.ofLocal added.local) (pathOf added)

/-- A new tree in the forest. -/
theorem addStep_chain (h : WellRooted trees)
    (hnew : ∀ tree ∈ trees, tree.place ≠ Place.ofLocal added.local) :
    WellRooted (trees ++ [newTree targetType added]) ∧
      AddStep targetType added (forestKind trees)
        (forestKind (trees ++ [newTree targetType added])) := by
  have hrooted : WellRooted (trees ++ [newTree targetType added]) := by
    refine ⟨?_, ?_, ?_⟩
    · intro tree htree
      rcases List.mem_append.mp htree with htree | htree
      · exact h.root tree htree
      · rw [List.mem_singleton.mp htree, PermissionTree.place_chain]
        rfl
    · intro tree htree
      rcases List.mem_append.mp htree with htree | htree
      · exact h.wellPlaced tree htree
      · rw [List.mem_singleton.mp htree]
        exact PermissionTree.wellPlaced_chain
    · rw [List.map_append, List.map_singleton, PermissionTree.place_chain, ← List.concat_eq_append]
      refine h.nodup.concat fun hmem => ?_
      obtain ⟨tree, htree, hplace⟩ := List.mem_map.mp hmem
      exact hnew tree htree hplace
  have hsame : ∀ x : Place Ty, x.local = added.local →
      forestKind (trees ++ [newTree targetType added]) x =
      if pathOf x <+: pathOf added then
        some (if x = added then targetType.toPermissionKind else .readNode)
      else none := by
    intro x hlocal
    rw [hrooted.forestKind_eq (List.mem_append_right _ (List.mem_singleton_self _))
      (by rw [PermissionTree.place_chain, hlocal]), PermissionTree.kindAt_chain]
    simp only [pathOf_inj hlocal]
  refine ⟨hrooted, ?_, ?_, ?_⟩
  · intro x hx
    by_cases hlocal : x.local = added.local
    · rw [hsame x hlocal, if_neg ((pathOf_prefix_iff hlocal).not.mpr hx),
        forestKind_eq_none (hlocal ▸ hnew)]
    · rw [forestKind, forestKind, List.find?_append]
      have hnone : ([newTree targetType added].find? fun tree =>
            tree.place = Place.ofLocal x.local) = none := by
        rw [List.find?_eq_none]
        intro tree htree
        rw [List.mem_singleton.mp htree, PermissionTree.place_chain, decide_eq_true_iff]
        exact fun heq => hlocal (ofLocal_inj.mp heq).symm
      rw [hnone, Option.or_none]
  · rw [hsame added rfl, if_pos List.prefix_rfl, if_pos rfl, forestKind_eq_none hnew]
    rfl
  · intro x hx
    rw [hsame x hx.le.1, if_pos ((pathOf_prefix_iff hx.le.1).mpr hx.le), if_neg hx.ne]
    exact .inl rfl

/-- A place is added to the tree of its local. -/
def addBelow (targetType : TargetType) (added : Place Ty) (tree : PermissionNode Ty) :
    PermissionNode Ty :=
  if tree.place = Place.ofLocal added.local then
    PermissionTree.addComponents targetType (pathOf added) tree
  else tree

theorem place_addBelow (tree : PermissionNode Ty) :
    (addBelow targetType added tree).place = tree.place := by
  unfold addBelow
  split
  · exact PermissionTree.place_addComponents
  · rfl

/-- One tree of the forest gets a new place below its root. -/
theorem addStep_addBelow (h : WellRooted trees) (htree : tree ∈ trees)
    (hroot : tree.place = Place.ofLocal added.local) (hadded : added.projection ≠ []) :
    WellRooted (trees.map (addBelow targetType added)) ∧
      AddStep targetType added (forestKind trees)
        (forestKind (trees.map (addBelow targetType added))) := by
  have hrooted : WellRooted (trees.map (addBelow targetType added)) := by
    refine ⟨?_, ?_, ?_⟩
    · intro other hother
      obtain ⟨tree, htree, rfl⟩ := List.mem_map.mp hother
      rw [place_addBelow]
      exact h.root tree htree
    · intro other hother
      obtain ⟨tree, htree, rfl⟩ := List.mem_map.mp hother
      unfold addBelow
      split
      · next hroot =>
          rw [pathOf, ← hroot]
          exact PermissionTree.wellPlaced_addComponents (h.wellPlaced tree htree)
      · exact h.wellPlaced tree htree
    · rw [List.map_map, show place ∘ addBelow targetType added = place from funext place_addBelow]
      exact h.nodup
  have hsame : ∀ x : Place Ty, x.local = added.local →
      forestKind (trees.map (addBelow targetType added)) x =
      if pathOf x ≠ [] ∧ pathOf x <+: pathOf added then
        if x = added then some ((forestKind trees x).getD targetType.toPermissionKind)
        else some (PermissionTree.wayKind targetType (forestKind trees x))
      else forestKind trees x := by
    intro x hlocal
    rw [hrooted.forestKind_eq (List.mem_map_of_mem htree) (by rw [place_addBelow, hroot, hlocal]),
      addBelow, if_pos hroot, h.forestKind_eq htree (by rw [hroot, hlocal]),
      PermissionTree.kindAt_addComponents]
    simp only [pathOf_inj hlocal]
  refine ⟨hrooted, ?_, ?_, ?_⟩
  · intro x hx
    by_cases hlocal : x.local = added.local
    · rw [hsame x hlocal, if_neg fun h => hx ((pathOf_prefix_iff hlocal).mp h.2)]
    · have hfind : ∀ trees : List (PermissionNode Ty),
          ((trees.map (addBelow targetType added)).find?
              fun tree => tree.place = Place.ofLocal x.local) =
            trees.find? fun tree => tree.place = Place.ofLocal x.local := by
        intro trees
        induction trees with
        | nil => rfl
        | cons tree trees ih =>
          rw [List.map_cons]
          by_cases hx : tree.place = Place.ofLocal x.local
          · have hne : tree.place ≠ Place.ofLocal added.local := by
              rw [hx]
              exact fun heq => hlocal (ofLocal_inj.mp heq)
            rw [addBelow, if_neg hne, List.find?_cons_of_pos (by simpa using hx),
              List.find?_cons_of_pos (by simpa using hx)]
          · rw [List.find?_cons_of_neg (by simpa [place_addBelow] using hx),
              List.find?_cons_of_neg (by simpa using hx), ih]
      rw [forestKind, forestKind, hfind]
  · rw [hsame added rfl, if_pos ⟨pathOf_eq_nil_iff.not.mpr hadded, List.prefix_rfl⟩, if_pos rfl]
  · intro x hx
    rw [hsame x hx.le.1]
    by_cases hpath : pathOf x = []
    · refine .inr (.inr ?_)
      rw [if_neg fun h => h.1 hpath]
      refine ⟨rfl, ?_⟩
      rw [h.forestKind_eq htree (by rw [hroot, hx.le.1]), hpath]
      rfl
    · rw [if_pos ⟨hpath, (pathOf_prefix_iff hx.le.1).mpr hx.le⟩, if_neg hx.ne]
      unfold PermissionTree.wayKind
      split
      · exact .inr (.inl rfl)
      · cases hkind : forestKind trees x with
        | none => exact .inl rfl
        | some kind => exact .inr (.inr ⟨rfl, rfl⟩)

/-- The tree of a local gets the path. -/
def addTo (types : PlaceTypes Ty) (targetType : TargetType) (added : Place Ty)
    (tree : PermissionNode Ty) : Option (PermissionNode Ty) :=
  if isPrefix added tree.place = true then PermissionTree.add types tree added targetType
  else some tree

/-- What adding a path does.  It fails for a local that is written and has a tree. -/
theorem addPath_spec (h : WellRooted trees) (hvec : (vecPlace types added).isSome)
    (hplaces : PermissionForest.computePlacesToAdd added allPlaces = some [(added, added)]) :
    (PermissionForest.addPath types targetType allPlaces trees added = none ∧
      targetType.isWrite = true ∧ (forestKind trees added).isSome) ∨
    ∃ trees', PermissionForest.addPath types targetType allPlaces trees added = some trees' ∧
      WellRooted trees' ∧ AddStep targetType added (forestKind trees) (forestKind trees') := by
  have hpath : PermissionForest.addPath types targetType allPlaces trees added =
      (trees.mapM (addTo types targetType added)).bind fun given =>
        if (trees.any fun tree => isPrefix added tree.place) = true then some given
        else some (given ++ [newTree targetType added]) := by
    unfold addTo
    simp [PermissionForest.addPath, hplaces, PermissionTree.new_eq hvec getLast?_pathOf]
  by_cases hroot : ∃ tree ∈ trees, tree.place = Place.ofLocal added.local
  · obtain ⟨tree, htree, hroot⟩ := hroot
    have hany : (trees.any fun tree => isPrefix added tree.place) = true :=
      List.any_eq_true.mpr ⟨tree, htree, (h.isPrefix_root_iff htree).mpr hroot⟩
    have hkind := h.forestKind_eq htree hroot
    by_cases hlocal : pathOf added = []
    · rw [hlocal, kindAt_nil] at hkind
      cases hwrite : targetType.isWrite with
      | true =>
        left
        refine ⟨?_, rfl, by rw [hkind]; rfl⟩
        have hfail : trees.mapM (addTo types targetType added) = none := by
          rw [Option.eq_none_iff_forall_ne_some]
          intro result hresult
          obtain ⟨other, -, hother⟩ := exists_of_forall₂_mem (mapM_eq_some_iff.mp hresult) htree
          rw [addTo, if_pos ((h.isPrefix_root_iff htree).mpr hroot), PermissionTree.add_eq hvec,
            if_pos hlocal, if_pos hwrite] at hother
          cases hother
        rw [hpath, hfail, Option.bind_none]
      | false =>
        right
        have hsame : trees.mapM (addTo types targetType added) = some trees := by
          have hall := @mapM_eq_map _ _ trees (addTo types targetType added) id (by
              intro tree _
              unfold addTo
              split
              · rw [PermissionTree.add_eq hvec, if_pos hlocal, hwrite]
                rfl
              · rfl)
          rwa [List.map_id] at hall
        refine ⟨trees, ?_, h, ?_, ?_, ?_⟩
        · rw [hpath, hsame, Option.bind_some, if_pos hany]
        · exact fun _ _ => rfl
        · rw [hkind]
          rfl
        · intro x hx
          have hnil := (pathOf_prefix_iff hx.le.1).mpr hx.le
          rw [hlocal, List.prefix_nil] at hnil
          exact absurd ((pathOf_inj hx.le.1).mp (hnil.trans hlocal.symm)) hx.ne
    · right
      have hmap : trees.mapM (addTo types targetType added) =
          some (trees.map (addBelow targetType added)) := by
        apply mapM_eq_map
        intro tree htree
        unfold addTo addBelow
        by_cases hroot : tree.place = Place.ofLocal added.local
        · rw [if_pos ((h.isPrefix_root_iff htree).mpr hroot), if_pos hroot,
            PermissionTree.add_eq hvec, if_neg hlocal]
        · rw [if_neg ((h.isPrefix_root_iff htree).not.mpr hroot), if_neg hroot]
      obtain ⟨hrooted, hstep⟩ := @addStep_addBelow _ _ _ _ _ targetType h htree hroot
        (pathOf_eq_nil_iff.not.mp hlocal)
      refine ⟨_, ?_, hrooted, hstep⟩
      rw [hpath, hmap, Option.bind_some, if_pos hany]
  · right
    push Not at hroot
    have hany : (trees.any fun tree => isPrefix added tree.place) = false := by
      rw [List.any_eq_false]
      intro tree htree
      exact (h.isPrefix_root_iff htree).not.mpr (hroot tree htree)
    have hsame : trees.mapM (addTo types targetType added) = some trees := by
      have hall := @mapM_eq_map _ _ trees (addTo types targetType added) id (by
          intro tree htree
          exact if_neg ((h.isPrefix_root_iff htree).not.mpr (hroot tree htree)))
      rwa [List.map_id] at hall
    obtain ⟨hrooted, hstep⟩ := @addStep_chain _ _ _ _ targetType h hroot
    refine ⟨_, ?_, hrooted, hstep⟩
    rw [hpath, hsame, Option.bind_some, if_neg (Bool.not_eq_true _ ▸ hany)]

end Forest

end Prusti.LoopInvariant

/-
Sets of nodes of a forest.  A node stands for all the leaves at or below it.  A set
is canonical when no node of it lies below another and it has a node itself instead of
all its children; canonical sets that stand for the same leaves are equal.
-/
import Mathlib.Data.Finset.Max

namespace Prusti.Lib

universe u

/-- A forest whose order says that a node lies at or above another.  The children
need only be right for the well-formed nodes. -/
structure Forest (α : Type u) [PartialOrder α] where
  children : α → Finset α
  depth : α → Nat
  Node : α → Prop
  comparable : ∀ {x y z : α}, x ≤ z → y ≤ z → x ≤ y ∨ y ≤ x
  depth_lt : ∀ {x y : α}, x < y → depth x < depth y
  lt_child : ∀ {x child : α}, child ∈ children x → x < child
  depth_child : ∀ {x child : α}, child ∈ children x → depth child = depth x + 1
  node_of_le : ∀ {x y : α}, x ≤ y → Node y → Node x
  node_child : ∀ {x child : α}, Node x → child ∈ children x → Node child
  exists_child : ∀ {x y : α}, Node y → x < y → ∃ child ∈ children x, child ≤ y

namespace Forest

variable {α : Type u} [PartialOrder α] (forest : Forest α)

def IsLeaf (x : α) : Prop := forest.Node x ∧ forest.children x = ∅

/-- The leaves that a set of nodes stands for. -/
def leaves (nodes : Finset α) : Set α := {leaf | forest.IsLeaf leaf ∧ ∃ x ∈ nodes, x ≤ leaf}

structure Canonical (nodes : Finset α) : Prop where
  node : ∀ x ∈ nodes, forest.Node x
  antichain : ∀ x ∈ nodes, ∀ y ∈ nodes, x ≤ y → x = y
  uncollapsed : ∀ x, forest.children x ≠ ∅ → ¬ forest.children x ⊆ nodes

/-- Every node has a leaf at or below it. -/
def Bounded : Prop := ∀ x, forest.Node x → ∃ leaf, forest.IsLeaf leaf ∧ x ≤ leaf

variable {forest}

section Children

variable (forest) {x y z child : α}

theorem le_of_lt_child (hchild : child ∈ forest.children x) (h : y < child) : y ≤ x := by
  rcases forest.comparable h.le (forest.lt_child hchild).le with hle | hle
  · exact hle
  · rcases hle.eq_or_lt with heq | hlt
    · exact heq.ge
    · have hdepth := forest.depth_lt hlt
      have hdepth' := forest.depth_lt h
      have := forest.depth_child hchild
      omega

theorem child_unique (hx : child ∈ forest.children x) (hy : child ∈ forest.children y) : x = y :=
  le_antisymm (forest.le_of_lt_child hy (forest.lt_child hx))
    (forest.le_of_lt_child hx (forest.lt_child hy))

theorem child_eq_of_le (hy : y ∈ forest.children x) (hz : z ∈ forest.children x)
    (h : y ≤ z) : y = z := by
  rcases h.eq_or_lt with heq | hlt
  · exact heq
  · exact absurd (forest.le_of_lt_child hz hlt) (forest.lt_child hy).not_ge

theorem exists_parent (hnode : forest.Node y) (h : x < y) :
    ∃ parent, x ≤ parent ∧ y ∈ forest.children parent := by
  induction hdistance : forest.depth y - forest.depth x using Nat.strong_induction_on
    generalizing x with
  | h distance ih =>
    obtain ⟨child, hchild, hle⟩ := forest.exists_child hnode h
    rcases hle.eq_or_lt with rfl | hlt
    · exact ⟨x, le_rfl, hchild⟩
    · have hdepth := forest.depth_lt hlt
      have hnext := forest.depth_child hchild
      obtain ⟨parent, hparent, hmem⟩ := ih _ (by omega) hlt rfl
      exact ⟨parent, (forest.lt_child hchild).le.trans hparent, hmem⟩

end Children

section Equality

variable {nodes others : Finset α}

/-- A canonical set that stands for the leaves below a node has a node at or above
it: otherwise the children of the deepest node above those leaves would all be in the
set. -/
theorem exists_le_of_leaves_subset (hbounded : forest.Bounded)
    (hothers : forest.Canonical others) {x : α} (hnode : forest.Node x)
    (h : ∀ leaf, forest.IsLeaf leaf → x ≤ leaf → leaf ∈ forest.leaves others) :
    ∃ y ∈ others, y ≤ x := by
  classical
  by_contra hnone
  push Not at hnone
  have hcover : ∀ leaf, forest.IsLeaf leaf → x ≤ leaf → ∃ y ∈ others.filter (x < ·), y ≤ leaf := by
    intro leaf hleaf hle
    obtain ⟨-, y, hy, hyleaf⟩ := h leaf hleaf hle
    refine ⟨y, Finset.mem_filter.mpr ⟨hy, ?_⟩, hyleaf⟩
    rcases forest.comparable hle hyleaf with hxy | hyx
    · exact lt_of_le_not_ge hxy (hnone y hy)
    · exact absurd hyx (hnone y hy)
  obtain ⟨leaf, hleaf, hle⟩ := hbounded x hnode
  obtain ⟨first, hfirst, -⟩ := hcover leaf hleaf hle
  obtain ⟨deepest, hdeepest, hmax⟩ :=
    Finset.exists_max_image (others.filter (x < ·)) forest.depth ⟨first, hfirst⟩
  obtain ⟨hmem, hlt⟩ := Finset.mem_filter.mp hdeepest
  have hdeepestNode := hothers.node deepest hmem
  obtain ⟨parent, hparent, hchild⟩ := forest.exists_parent hdeepestNode hlt
  refine hothers.uncollapsed parent (Finset.ne_empty_of_mem hchild) ?_
  intro child hsibling
  have hparentNode := forest.node_of_le (forest.lt_child hchild).le hdeepestNode
  have hxchild := hparent.trans (forest.lt_child hsibling).le
  obtain ⟨leaf', hleaf', hle'⟩ := hbounded child (forest.node_child hparentNode hsibling)
  obtain ⟨y, hy, hyleaf⟩ := hcover leaf' hleaf' (hxchild.trans hle')
  obtain ⟨hyMem, -⟩ := Finset.mem_filter.mp hy
  have hdepth := hmax y hy
  have hdepthChild := forest.depth_child hchild
  have hdepthSibling := forest.depth_child hsibling
  rcases forest.comparable hle' hyleaf with hcy | hyc
  · rcases hcy.eq_or_lt with rfl | hcy
    · exact hyMem
    · have := forest.depth_lt hcy
      omega
  · rcases hyc.eq_or_lt with rfl | hyc
    · exact hyMem
    · have hyparent := forest.le_of_lt_child hsibling hyc
      have heq := hothers.antichain y hyMem deepest hmem
        (hyparent.trans (forest.lt_child hchild).le)
      rw [heq] at hyparent
      exact absurd hyparent (forest.lt_child hchild).not_ge

theorem Canonical.subset_of_leaves_eq (hnodes : forest.Canonical nodes)
    (hothers : forest.Canonical others) (hbounded : forest.Bounded)
    (h : forest.leaves nodes = forest.leaves others) : nodes ⊆ others := by
  intro x hx
  obtain ⟨y, hy, hyx⟩ := exists_le_of_leaves_subset hbounded hothers (hnodes.node x hx)
    fun leaf hleaf hle => by
      rw [← h]
      exact ⟨hleaf, x, hx, hle⟩
  obtain ⟨z, hz, hzy⟩ := exists_le_of_leaves_subset hbounded hnodes (hothers.node y hy)
    fun leaf hleaf hle => by
      rw [h]
      exact ⟨hleaf, y, hy, hle⟩
  have heq := hnodes.antichain z hz x hx (hzy.trans hyx)
  rw [heq] at hzy
  rwa [le_antisymm hzy hyx]

/-- Canonical sets are equal when they stand for the same leaves. -/
theorem Canonical.eq_of_leaves_eq (hnodes : forest.Canonical nodes)
    (hothers : forest.Canonical others) (hbounded : forest.Bounded)
    (h : forest.leaves nodes = forest.leaves others) : nodes = others :=
  Finset.Subset.antisymm (hnodes.subset_of_leaves_eq hothers hbounded h)
    (hothers.subset_of_leaves_eq hnodes hbounded h.symm)

end Equality

section Meet

variable {nodes others result : Finset α}

/-- The nodes of either set that lie at or below a node of the other one. -/
def IsMeet (nodes others result : Finset α) : Prop :=
  ∀ x, x ∈ result ↔ (x ∈ nodes ∧ ∃ y ∈ others, y ≤ x) ∨ (x ∈ others ∧ ∃ y ∈ nodes, y ≤ x)

theorem IsMeet.leaves_eq (h : IsMeet nodes others result) :
    forest.leaves result = forest.leaves nodes ∩ forest.leaves others := by
  ext leaf
  constructor
  · rintro ⟨hleaf, x, hx, hle⟩
    rcases (h x).mp hx with ⟨hnodes, y, hy, hyx⟩ | ⟨hothers, y, hy, hyx⟩
    · exact ⟨⟨hleaf, x, hnodes, hle⟩, ⟨hleaf, y, hy, hyx.trans hle⟩⟩
    · exact ⟨⟨hleaf, y, hy, hyx.trans hle⟩, ⟨hleaf, x, hothers, hle⟩⟩
  · rintro ⟨⟨hleaf, x, hx, hxleaf⟩, ⟨-, y, hy, hyleaf⟩⟩
    rcases forest.comparable hxleaf hyleaf with hxy | hyx
    · exact ⟨hleaf, y, (h y).mpr (.inr ⟨hy, x, hx, hxy⟩), hyleaf⟩
    · exact ⟨hleaf, x, (h x).mpr (.inl ⟨hx, y, hy, hyx⟩), hxleaf⟩

theorem IsMeet.canonical (h : IsMeet nodes others result) (hnodes : forest.Canonical nodes)
    (hothers : forest.Canonical others) : forest.Canonical result := by
  refine ⟨?_, ?_, ?_⟩
  · intro x hx
    rcases (h x).mp hx with ⟨hx, -⟩ | ⟨hx, -⟩
    · exact hnodes.node x hx
    · exact hothers.node x hx
  · intro x hx y hy hxy
    rcases (h x).mp hx with ⟨hx, z, hz, hzx⟩ | ⟨hx, z, hz, hzx⟩
    · rcases (h y).mp hy with ⟨hy, -⟩ | ⟨hy, -⟩
      · exact hnodes.antichain x hx y hy hxy
      · have heq := hothers.antichain z hz y hy (hzx.trans hxy)
        exact le_antisymm hxy (heq ▸ hzx)
    · rcases (h y).mp hy with ⟨hy, -⟩ | ⟨hy, -⟩
      · have heq := hnodes.antichain z hz y hy (hzx.trans hxy)
        exact le_antisymm hxy (heq ▸ hzx)
      · exact hothers.antichain x hx y hy hxy
  · intro x hne hsubset
    -- The children come from one set alone when the other one has a node above them.
    by_cases habove : ∃ y ∈ others, y ≤ x
    · obtain ⟨y, hy, hyx⟩ := habove
      refine hnodes.uncollapsed x hne fun child hchild => ?_
      rcases (h child).mp (hsubset hchild) with ⟨hmem, -⟩ | ⟨hmem, -⟩
      · exact hmem
      · have hlt := hyx.trans_lt (forest.lt_child hchild)
        exact absurd (hothers.antichain y hy child hmem hlt.le) hlt.ne
    · refine hothers.uncollapsed x hne fun child hchild => ?_
      rcases (h child).mp (hsubset hchild) with ⟨-, y, hy, hychild⟩ | ⟨hmem, -⟩
      · rcases hychild.eq_or_lt with rfl | hlt
        · exact hy
        · exact absurd ⟨y, hy, forest.le_of_lt_child hchild hlt⟩ habove
      · exact hmem

end Meet

section Difference

variable {nodes result : Finset α} {removed : α}

variable (forest) in
/-- The nodes that are not related to the removed one, and the siblings of the nodes on
the way to it from a node above it. -/
def IsDifference (nodes : Finset α) (removed : α) (result : Finset α) : Prop :=
  ∀ y, y ∈ result ↔ (y ∈ nodes ∧ ¬ y ≤ removed ∧ ¬ removed ≤ y) ∨
    ∃ x ∈ nodes, ∃ z, x ≤ z ∧ z < removed ∧ y ∈ forest.children z ∧ ¬ y ≤ removed

theorem IsDifference.not_related (h : IsDifference forest nodes removed result) {y : α}
    (hy : y ∈ result) : ¬ y ≤ removed ∧ ¬ removed ≤ y := by
  rcases (h y).mp hy with ⟨-, hnot⟩ | ⟨x, -, z, -, hz, hchild, hnot⟩
  · exact hnot
  · refine ⟨hnot, fun hle => ?_⟩
    rcases hle.eq_or_lt with heq | hlt
    · exact hnot heq.ge
    · exact absurd (forest.le_of_lt_child hchild hlt) hz.not_ge

/-- The way to a leaf leaves the way to another node at some child. -/
theorem exists_branch {x y leaf : α} (hleaf : forest.IsLeaf leaf) (hy : forest.Node y)
    (hxy : x ≤ y) (hxleaf : x ≤ leaf) (hnot : ¬ y ≤ leaf) :
    ∃ z, x ≤ z ∧ z < y ∧ ∃ child ∈ forest.children z, child ≤ leaf ∧ ¬ child ≤ y := by
  induction hdistance : forest.depth y - forest.depth x using Nat.strong_induction_on
    generalizing x with
  | h distance ih =>
    have hlt : x < y := lt_of_le_of_ne hxy (by rintro rfl; exact hnot hxleaf)
    have hbelow : x < leaf := by
      refine lt_of_le_of_ne hxleaf ?_
      rintro rfl
      obtain ⟨child, hchild, -⟩ := forest.exists_child hy hlt
      rw [hleaf.2] at hchild
      exact Finset.notMem_empty child hchild
    obtain ⟨child, hchild, hle⟩ := forest.exists_child hleaf.1 hbelow
    by_cases hchildy : child ≤ y
    · have hdepth := forest.depth_child hchild
      have hdepth' := forest.depth_lt hlt
      obtain ⟨z, hz, hzy, hrest⟩ := ih _ (by omega) hchildy hle rfl
      exact ⟨z, (forest.lt_child hchild).le.trans hz, hzy, hrest⟩
    · exact ⟨x, le_rfl, hlt, child, hchild, hle, hchildy⟩

theorem IsDifference.leaves_eq (h : IsDifference forest nodes removed result)
    (hremoved : forest.Node removed) :
    forest.leaves result = {leaf ∈ forest.leaves nodes | ¬ removed ≤ leaf} := by
  ext leaf
  constructor
  · rintro ⟨hleaf, y, hy, hle⟩
    have hnot := h.not_related hy
    have habove : ∃ x ∈ nodes, x ≤ leaf := by
      rcases (h y).mp hy with ⟨hmem, -⟩ | ⟨x, hx, z, hxz, -, hchild, -⟩
      · exact ⟨y, hmem, hle⟩
      · exact ⟨x, hx, (hxz.trans (forest.lt_child hchild).le).trans hle⟩
    refine ⟨⟨hleaf, habove⟩, fun hremovedLeaf => ?_⟩
    rcases forest.comparable hle hremovedLeaf with hyr | hry
    · exact hnot.1 hyr
    · exact hnot.2 hry
  · rintro ⟨⟨hleaf, x, hx, hle⟩, hnot⟩
    by_cases hxr : x ≤ removed
    · obtain ⟨z, hxz, hz, child, hchild, hchildLeaf, hchildNot⟩ :=
        exists_branch hleaf hremoved hxr hle hnot
      exact ⟨hleaf, child, (h child).mpr (.inr ⟨x, hx, z, hxz, hz, hchild, hchildNot⟩), hchildLeaf⟩
    · exact ⟨hleaf, x, (h x).mpr (.inl ⟨hx, hxr, fun hrx => hnot (hrx.trans hle)⟩), hle⟩

theorem IsDifference.canonical (h : IsDifference forest nodes removed result)
    (hremoved : forest.Node removed) (hnodes : forest.Canonical nodes) :
    forest.Canonical result := by
  refine ⟨?_, ?_, ?_⟩
  · intro y hy
    rcases (h y).mp hy with ⟨hmem, -⟩ | ⟨x, -, z, -, hz, hchild, -⟩
    · exact hnodes.node y hmem
    · exact forest.node_child (forest.node_of_le hz.le hremoved) hchild
  · intro y hy y' hy' hle
    rcases (h y).mp hy with ⟨hmem, hnot, -⟩ | ⟨x, hx, z, hxz, hz, hchild, hnot⟩
    · rcases (h y').mp hy' with ⟨hmem', -⟩ | ⟨x', hx', z', hxz', hz', hchild', -⟩
      · exact hnodes.antichain y hmem y' hmem' hle
      · have habove := hxz'.trans (forest.lt_child hchild').le
        have hremoved' := hxz'.trans hz'.le
        rcases forest.comparable hle habove with hyx | hxy
        · exact absurd (hyx.trans hremoved') hnot
        · rw [hnodes.antichain x' hx' y hmem hxy] at hremoved'
          exact absurd hremoved' hnot
    · rcases (h y').mp hy' with ⟨hmem', hnot', -⟩ | ⟨x', hx', z', hxz', hz', hchild', -⟩
      · have habove := (hxz.trans (forest.lt_child hchild).le).trans hle
        rw [← hnodes.antichain x hx y' hmem' habove] at hnot'
        exact absurd (hxz.trans hz.le) hnot'
      · rcases hle.eq_or_lt with heq | hlt
        · exact heq
        · exact absurd ((forest.le_of_lt_child hchild' hlt).trans hz'.le) hnot
  · intro x hne hsubset
    by_cases hx : x < removed
    · obtain ⟨child, hchild, hle⟩ := forest.exists_child hremoved hx
      exact (h.not_related (hsubset hchild)).1 hle
    · refine hnodes.uncollapsed x hne fun child hchild => ?_
      rcases (h child).mp (hsubset hchild) with ⟨hmem, -⟩ | ⟨-, -, z, -, hz, hchild', -⟩
      · exact hmem
      · rw [forest.child_unique hchild hchild'] at hx
        exact absurd hz hx

end Difference

section Collapse

variable {nodes result : Finset α} {x y added : α}

variable (forest) in
/-- Canonical up to one node, which may complete the children of its parent. -/
structure Collapsing (nodes : Finset α) (added : α) : Prop where
  mem : added ∈ nodes
  node : ∀ x ∈ nodes, forest.Node x
  antichain : ∀ x ∈ nodes, ∀ y ∈ nodes, x ≤ y → x = y
  uncollapsed : ∀ x, forest.children x ≠ ∅ → forest.children x ⊆ nodes → added ∈ forest.children x

/-- The set with a node instead of all nodes at or below it. -/
def IsInsertion (nodes : Finset α) (added : α) (result : Finset α) : Prop :=
  ∀ x, x ∈ result ↔ x = added ∨ x ∈ nodes ∧ ¬ added ≤ x

theorem IsInsertion.leaves_eq (h : IsInsertion nodes added result) :
    forest.leaves result = forest.leaves nodes ∪ {leaf | forest.IsLeaf leaf ∧ added ≤ leaf} := by
  ext leaf
  constructor
  · rintro ⟨hleaf, x, hx, hle⟩
    rcases (h x).mp hx with rfl | ⟨hmem, -⟩
    · exact .inr ⟨hleaf, hle⟩
    · exact .inl ⟨hleaf, x, hmem, hle⟩
  · rintro (⟨hleaf, x, hx, hle⟩ | ⟨hleaf, hle⟩)
    · by_cases hbelow : added ≤ x
      · exact ⟨hleaf, added, (h added).mpr (.inl rfl), hbelow.trans hle⟩
      · exact ⟨hleaf, x, (h x).mpr (.inr ⟨hx, hbelow⟩), hle⟩
    · exact ⟨hleaf, added, (h added).mpr (.inl rfl), hle⟩

theorem IsInsertion.collapsing (h : IsInsertion nodes added result)
    (hadded : forest.Node added) (hnodes : forest.Canonical nodes)
    (hnot : ∀ x ∈ nodes, ¬ x ≤ added) : forest.Collapsing result added := by
  refine ⟨(h added).mpr (.inl rfl), ?_, ?_, ?_⟩
  · intro x hx
    rcases (h x).mp hx with rfl | ⟨hmem, -⟩
    · exact hadded
    · exact hnodes.node x hmem
  · intro x hx y hy hle
    rcases (h x).mp hx with rfl | ⟨hmem, -⟩
    · rcases (h y).mp hy with rfl | ⟨-, hbelow⟩
      · rfl
      · exact absurd hle hbelow
    · rcases (h y).mp hy with rfl | ⟨hmem', -⟩
      · exact absurd hle (hnot x hmem)
      · exact hnodes.antichain x hmem y hmem' hle
  · intro x hne hsubset
    by_contra hchild
    refine hnodes.uncollapsed x hne fun child hmem => ?_
    rcases (h child).mp (hsubset hmem) with rfl | ⟨hold, -⟩
    · exact absurd hmem hchild
    · exact hold

/-- The set with a node instead of its children. -/
def IsCollapse (forest : Forest α) (nodes : Finset α) (x : α) (result : Finset α) : Prop :=
  ∀ y, y ∈ result ↔ y = x ∨ y ∈ nodes ∧ y ∉ forest.children x

theorem IsCollapse.leaves_eq (h : IsCollapse forest nodes x result)
    (hsubset : forest.children x ⊆ nodes) (hne : forest.children x ≠ ∅) :
    forest.leaves result = forest.leaves nodes := by
  ext leaf
  constructor
  · rintro ⟨hleaf, y, hy, hle⟩
    rcases (h y).mp hy with rfl | ⟨hmem, -⟩
    · have hlt : y < leaf := lt_of_le_of_ne hle (by rintro rfl; exact hne hleaf.2)
      obtain ⟨child, hchild, hchildLeaf⟩ := forest.exists_child hleaf.1 hlt
      exact ⟨hleaf, child, hsubset hchild, hchildLeaf⟩
    · exact ⟨hleaf, y, hmem, hle⟩
  · rintro ⟨hleaf, y, hy, hle⟩
    by_cases hchild : y ∈ forest.children x
    · exact ⟨hleaf, x, (h x).mpr (.inl rfl), (forest.lt_child hchild).le.trans hle⟩
    · exact ⟨hleaf, y, (h y).mpr (.inr ⟨hy, hchild⟩), hle⟩

/-- Collapsing a node moves the place where the set may not be canonical one level up. -/
theorem IsCollapse.collapsing (h : IsCollapse forest nodes x result)
    (hnodes : forest.Collapsing nodes added) (hadded : added ∈ forest.children x)
    (hsubset : forest.children x ⊆ nodes) : forest.Collapsing result x := by
  have hx := forest.node_of_le (forest.lt_child hadded).le (hnodes.node added hnodes.mem)
  refine ⟨(h x).mpr (.inl rfl), ?_, ?_, ?_⟩
  · intro y hy
    rcases (h y).mp hy with rfl | ⟨hmem, -⟩
    · exact hx
    · exact hnodes.node y hmem
  · intro y hy y' hy' hle
    rcases (h y).mp hy with rfl | ⟨hmem, hnot⟩
    · rcases (h y').mp hy' with rfl | ⟨hmem', hnot'⟩
      · rfl
      · rcases hle.eq_or_lt with heq | hlt
        · exact heq
        · obtain ⟨child, hchild, hchildLe⟩ := forest.exists_child (hnodes.node y' hmem') hlt
          have heq := hnodes.antichain child (hsubset hchild) y' hmem' hchildLe
          exact absurd (heq ▸ hchild) hnot'
    · rcases (h y').mp hy' with rfl | ⟨hmem', -⟩
      · have heq := hnodes.antichain y hmem added hnodes.mem (hle.trans (forest.lt_child hadded).le)
        exact absurd (heq ▸ hadded) hnot
      · exact hnodes.antichain y hmem y' hmem' hle
  · intro z hne hchildren
    by_contra hnot
    have hold : forest.children z ⊆ nodes := by
      intro child hchild
      rcases (h child).mp (hchildren hchild) with rfl | ⟨hmem, -⟩
      · exact absurd hchild hnot
      · exact hmem
    obtain rfl := forest.child_unique (hnodes.uncollapsed z hne hold) hadded
    obtain ⟨child, hchild⟩ := Finset.nonempty_iff_ne_empty.mpr hne
    rcases (h child).mp (hchildren hchild) with rfl | ⟨-, hout⟩
    · exact hnot hchild
    · exact hout hchild

theorem Collapsing.canonical_of_not_subset (h : forest.Collapsing nodes added)
    (hadded : added ∈ forest.children x) (hnot : ¬ forest.children x ⊆ nodes) :
    forest.Canonical nodes := by
  refine ⟨h.node, h.antichain, fun y hne hsubset => hnot ?_⟩
  rwa [forest.child_unique hadded (h.uncollapsed y hne hsubset)]

theorem Collapsing.canonical_of_root (h : forest.Collapsing nodes added)
    (hroot : ∀ x, added ∉ forest.children x) : forest.Canonical nodes :=
  ⟨h.node, h.antichain, fun y hne hsubset => hroot y (h.uncollapsed y hne hsubset)⟩

end Collapse

end Forest

end Prusti.Lib

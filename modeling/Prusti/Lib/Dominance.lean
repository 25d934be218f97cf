/-
Dominators of a graph with a root, and the natural loops of back edges: what a loop
contains, and that two loops that meet are nested.
-/
import Mathlib.Data.List.Chain
import Mathlib.Order.WellFounded

namespace Prusti.Lib

universe u

open Relation

variable {V : Type u} (edge : V → V → Prop) (root : V)

/-- There is a path on which a vertex does not occur. -/
def ReachesAvoiding (avoided u v : V) : Prop :=
  u ≠ avoided ∧ ReflTransGen (fun a b => edge a b ∧ b ≠ avoided) u v

/-- Every path from the root to `v` passes through `d`. -/
def Dominates (d v : V) : Prop := ¬ ReachesAvoiding edge d root v

variable {edge} {root} {a b c d u v w : V}

namespace ReachesAvoiding

theorem refl (h : v ≠ d) : ReachesAvoiding edge d v v := ⟨h, .refl⟩

theorem tail (h : ReachesAvoiding edge d u v) (hstep : edge v w) (hw : w ≠ d) :
    ReachesAvoiding edge d u w := ⟨h.1, h.2.tail ⟨hstep, hw⟩⟩

theorem target_ne (h : ReachesAvoiding edge d u v) : v ≠ d := by
  rcases h.2.cases_tail with rfl | ⟨w, -, -, hv⟩
  · exact h.1
  · exact hv

theorem head (hstep : edge u v) (hu : u ≠ d) (h : ReachesAvoiding edge d v w) :
    ReachesAvoiding edge d u w := ⟨hu, .head ⟨hstep, h.1⟩ h.2⟩

theorem trans (h : ReachesAvoiding edge d u v) (h' : ReachesAvoiding edge d v w) :
    ReachesAvoiding edge d u w := ⟨h.1, h.2.trans h'.2⟩

theorem reaches (h : ReachesAvoiding edge d u v) : ReflTransGen edge u v :=
  ReflTransGen.mono (fun _ _ hstep => hstep.1) _ _ h.2

theorem mono {edge' : V → V → Prop} (hsub : ∀ a b, edge a b → edge' a b)
    (h : ReachesAvoiding edge d u v) : ReachesAvoiding edge' d u v :=
  ⟨h.1, ReflTransGen.mono (fun a b hstep => ⟨hsub a b hstep.1, hstep.2⟩) _ _ h.2⟩

/-- Induction from the end of the path. -/
theorem head_induction {motive : V → Prop} (h : ReachesAvoiding edge d u v) (hend : motive v)
    (hstep : ∀ a b, edge a b → a ≠ d → ReachesAvoiding edge d b v → motive b → motive a) :
    motive u := by
  obtain ⟨hu, hpath⟩ := h
  induction hpath using ReflTransGen.head_induction_on with
  | refl => exact hend
  | @head a b hab hpath ih => exact hstep a b hab.1 hu ⟨hab.2, hpath⟩ (ih hab.2)

/-- A path avoids a vertex as well when none of its vertices is that vertex. -/
theorem avoid_other (h : ReachesAvoiding edge d u v)
    (hother : ∀ w, ReachesAvoiding edge d w v → w ≠ c) : ReachesAvoiding edge c u v := by
  have hv : ReachesAvoiding edge d v v := refl h.target_ne
  exact (h.head_induction (motive := fun w => ReachesAvoiding edge c w v) (refl (hother v hv))
    (fun _ _ hstep ha hpath ih => head hstep (hother _ (head hstep ha hpath)) ih))

end ReachesAvoiding

/-- A path as the list of its vertices. -/
structure IsPath (edge : V → V → Prop) (u v : V) (path : List V) : Prop where
  first : path.head? = some u
  last : path.getLast? = some v
  steps : path.IsChain edge

theorem exists_isPath {motive : V → Prop} (hu : motive u)
    (h : ReflTransGen (fun a b => edge a b ∧ motive b) u v) :
    ∃ path, IsPath edge u v path ∧ ∀ w ∈ path, motive w := by
  induction h using ReflTransGen.head_induction_on with
  | refl => exact ⟨[v], ⟨rfl, rfl, .singleton v⟩, by simpa using hu⟩
  | @head a b hstep _ ih =>
    obtain ⟨path, hpath, hall⟩ := ih hstep.2
    obtain ⟨rest, rfl⟩ := List.head?_eq_some_iff.mp hpath.first
    refine ⟨a :: b :: rest, ⟨rfl, ?_, ?_⟩, ?_⟩
    · rw [List.getLast?_cons_cons]
      exact hpath.last
    · exact List.isChain_cons_cons.mpr ⟨hstep.1, hpath.steps⟩
    · rw [List.forall_mem_cons]
      exact ⟨hu, hall⟩

theorem IsPath.reachesAvoiding {path : List V} (h : IsPath edge u v path) (hd : d ∉ path) :
    ReachesAvoiding edge d u v := by
  obtain ⟨hfirst, hlast, hsteps⟩ := h
  induction path generalizing u with
  | nil => cases hfirst
  | cons w path ih =>
    cases hfirst
    rw [List.mem_cons, not_or] at hd
    cases path with
    | nil =>
      cases hlast
      exact .refl (Ne.symm hd.1)
    | cons w path =>
      rw [List.getLast?_cons_cons] at hlast
      rw [List.isChain_cons_cons] at hsteps
      exact .head hsteps.1 (Ne.symm hd.1) (ih hd.2 rfl hlast hsteps.2)

/-- The part of a path behind the last visit of a vertex. -/
theorem exists_last_visit (h : ReflTransGen edge u v) :
    ReachesAvoiding edge d u v ∨ v = d ∨ ∃ w, edge d w ∧ ReachesAvoiding edge d w v := by
  induction h with
  | refl =>
    by_cases hu : u = d
    · exact .inr (.inl hu)
    · exact .inl (.refl hu)
  | @tail v w _ hstep ih =>
    by_cases hw : w = d
    · exact .inr (.inl hw)
    rcases ih with hpath | rfl | ⟨x, hx, hpath⟩
    · exact .inl (hpath.tail hstep hw)
    · exact .inr (.inr ⟨w, hstep, .refl hw⟩)
    · exact .inr (.inr ⟨x, hx, hpath.tail hstep hw⟩)

/-- The part of a path up to the first visit of its end. -/
theorem exists_first_visit (h : ReflTransGen edge u v) :
    u = v ∨ ∃ w, edge w v ∧ ReachesAvoiding edge v u w := by
  by_cases hu : u = v
  · exact .inl hu
  right
  suffices hpath : ∀ x, ReflTransGen edge u x →
      ReachesAvoiding edge v u x ∨ ∃ w, edge w v ∧ ReachesAvoiding edge v u w by
    rcases hpath v h with hpath | hpath
    · exact absurd rfl hpath.target_ne
    · exact hpath
  intro x hx
  induction hx with
  | refl => exact .inl (.refl hu)
  | @tail x y _ hstep ih =>
    rcases ih with hpath | hpath
    · by_cases hy : y = v
      · exact .inr ⟨x, hy ▸ hstep, hpath⟩
      · exact .inl (hpath.tail hstep hy)
    · exact .inr hpath

/-- A vertex `d` that some path to `c` avoids: every vertex is reached without `d`, or from
`d` without `c`. -/
theorem avoiding_or_avoiding_from (hroot : ReachesAvoiding edge d root c)
    (h : ReflTransGen edge root v) :
    ReachesAvoiding edge d root v ∨ ReachesAvoiding edge c d v := by
  induction h with
  | refl => exact .inl (.refl hroot.1)
  | @tail v w _ hstep ih =>
    rcases ih with hpath | hpath
    · by_cases hw : w = d
      · subst hw
        exact .inr (.refl hroot.target_ne.symm)
      · exact .inl (hpath.tail hstep hw)
    · by_cases hw : w = c
      · exact .inl (hw ▸ hroot)
      · exact .inr (hpath.tail hstep hw)

namespace Dominates

@[simp] theorem refl (v : V) : Dominates edge root v v := fun h => h.target_ne rfl

/-- What dominates a vertex dominates its predecessors. -/
theorem pred (h : Dominates edge root d v) (hv : v ≠ d) (hstep : edge u v) :
    Dominates edge root d u := fun hpath => h (hpath.tail hstep hv)

theorem of_reachesAvoiding (h : Dominates edge root d v)
    (hpath : ReachesAvoiding edge d u v) : Dominates edge root d u :=
  fun hroot => h (hroot.trans hpath)

/-- Two vertices are not on all paths to each other. -/
theorem antisymm (hreach : ReflTransGen edge root a) (hab : Dominates edge root a b)
    (hba : Dominates edge root b a) : a = b := by
  by_contra hne
  have hpath : ∀ x, ReflTransGen edge root x →
      ReachesAvoiding edge a root x ∧ ReachesAvoiding edge b root x := by
    intro x hx
    induction hx with
    | refl =>
      refine ⟨.refl ?_, .refl ?_⟩
      · rintro rfl
        exact hba (.refl hne)
      · rintro rfl
        exact hab (.refl (Ne.symm hne))
    | @tail x y _ hstep ih =>
      refine ⟨ih.1.tail hstep ?_, ih.2.tail hstep ?_⟩
      · rintro rfl
        exact hba (ih.2.tail hstep hne)
      · rintro rfl
        exact hab (ih.1.tail hstep (Ne.symm hne))
  exact (hpath a hreach).1.target_ne rfl

/-- The dominators of a vertex are ordered. -/
theorem total (hreach : ReflTransGen edge root v) (ha : Dominates edge root a v)
    (hb : Dominates edge root b v) : Dominates edge root a b ∨ Dominates edge root b a := by
  by_contra hnone
  rw [not_or, Dominates, Dominates, not_not, not_not] at hnone
  rcases avoiding_or_avoiding_from hnone.2 hreach with hpath | hpath
  · exact hb hpath
  · exact ha (hnone.1.trans hpath)

/-- A dominator lies on every path, so it leads to the vertex. -/
theorem reaches (h : Dominates edge root d v) (hreach : ReflTransGen edge root v) :
    ReflTransGen edge d v := by
  rcases exists_last_visit (d := d) hreach with hpath | rfl | ⟨w, hstep, hpath⟩
  · exact absurd hpath h
  · exact .refl
  · exact .head hstep hpath.reaches

/-- The root is dominated by itself only. -/
theorem eq_root (h : Dominates edge root d root) : d = root := by
  by_contra hne
  exact h (.refl (Ne.symm hne))

/-- A path leads from a dominator to a vertex, and past the dominators of that one. -/
theorem reachesAvoiding (hreach : ReflTransGen edge root v) (hc : ReflTransGen edge root c)
    (hne : c ≠ d) (hcd : Dominates edge root c d) (hd : Dominates edge root d v) :
    ReachesAvoiding edge c d v := by
  have hpath : ReachesAvoiding edge d root c := by
    by_contra hdc
    exact hne (antisymm hc hcd hdc)
  exact (avoiding_or_avoiding_from hpath hreach).resolve_left hd

end Dominates

section Loops

variable (edge) (root) (back : V → V → Prop)

/-- What the natural loop of a head holds: the head, and what leads to the source of a back
edge without passing through the head. -/
def InLoop (head v : V) : Prop := v = head ∨ ∃ source, back source head ∧
  ReachesAvoiding edge head v source

def IsHead (head : V) : Prop := ∃ source, back source head

/-- Back edges lead to a dominator of their source.  What leads to one is reached from the
root. -/
structure BackEdges : Prop where
  isEdge : ∀ {source head}, back source head → edge source head
  dominates : ∀ {source head}, back source head → Dominates edge root head source
  reached : ∀ {source head v}, back source head → ReflTransGen edge v source →
    ReflTransGen edge root v

variable {edge} {root} {back} {head head' : V}

namespace InLoop

theorem self (head : V) : InLoop edge back head head := .inl rfl

theorem of_path (h : InLoop edge back head v) (hpath : ReachesAvoiding edge head u v) :
    InLoop edge back head u := by
  rcases h with rfl | ⟨source, hsource, hv⟩
  · exact absurd rfl hpath.target_ne
  · exact .inr ⟨source, hsource, hpath.trans hv⟩

/-- A loop is entered at its head only. -/
theorem pred (h : InLoop edge back head v) (hv : v ≠ head) (hstep : edge u v) :
    InLoop edge back head u := by
  by_cases hu : u = head
  · exact .inl hu
  · exact h.of_path ((ReachesAvoiding.refl hu).tail hstep hv)

theorem dominates (hback : BackEdges edge root back) (h : InLoop edge back head v) :
    Dominates edge root head v := by
  rcases h with rfl | ⟨source, hsource, hpath⟩
  · exact .refl v
  · exact (hback.dominates hsource).of_reachesAvoiding hpath

section

variable (hback : BackEdges edge root back) (hhead : IsHead back head)

include hback hhead

theorem reached (h : InLoop edge back head v) : ReflTransGen edge root v := by
  rcases h with rfl | ⟨source, hsource, hpath⟩
  · obtain ⟨source, hsource⟩ := hhead
    exact (hback.reached hsource .refl).tail (hback.isEdge hsource)
  · exact hback.reached hsource hpath.reaches

/-- A loop whose head is in another loop is in this other loop as a whole. -/
theorem nested (h : InLoop edge back head head') (hv : InLoop edge back head' v) :
    InLoop edge back head v := by
  by_cases hne : head = head'
  · exact hne ▸ hv
  rcases hv with rfl | ⟨source, hsource, hpath⟩
  · exact h
  -- nothing that is dominated by the inner head is the outer one
  have hother : ReachesAvoiding edge head v source := by
    refine hpath.avoid_other fun w hw heq => ?_
    have hdom := (hback.dominates hsource).of_reachesAvoiding hw
    exact hne (Dominates.antisymm ((InLoop.self head).reached hback hhead)
      (h.dominates hback) (heq ▸ hdom))
  exact h.of_path (hother.tail (hback.isEdge hsource) (Ne.symm hne))

theorem antisymm (h : InLoop edge back head head') (h' : InLoop edge back head' head) :
    head = head' :=
  Dominates.antisymm ((InLoop.self head).reached hback hhead) (h.dominates hback)
    (h'.dominates hback)

/-- Two loops that share a vertex are nested. -/
theorem head_or_head (hhead' : IsHead back head') (h : InLoop edge back head v)
    (h' : InLoop edge back head' v) :
    InLoop edge back head head' ∨ InLoop edge back head' head := by
  by_cases hne : head = head'
  · exact .inl (hne ▸ InLoop.self head)
  have hv := h.reached hback hhead
  rcases Dominates.total hv (h.dominates hback) (h'.dominates hback) with hdom | hdom
  · left
    exact h.of_path (Dominates.reachesAvoiding hv
      ((InLoop.self head).reached hback hhead) hne hdom (h'.dominates hback))
  · right
    exact h'.of_path (Dominates.reachesAvoiding hv
      ((InLoop.self head').reached hback hhead') (Ne.symm hne) hdom (h.dominates hback))

/-- Every other vertex of a loop is entered from the loop, and not over a back edge. -/
theorem exists_pred (h : InLoop edge back head v) (hv : v ≠ head) :
    ∃ u, InLoop edge back head u ∧ edge u v ∧ ¬ back u v := by
  rcases exists_first_visit (h.reached hback hhead) with rfl | ⟨u, hstep, hpath⟩
  · exact absurd (Dominates.eq_root (h.dominates hback)).symm hv
  · exact ⟨u, h.pred hv hstep, hstep, fun huv => hback.dominates huv hpath⟩

end

end InLoop

end Loops

section Reducible

/-- Every strongly connected set of vertices has a vertex that dominates the others. -/
def Reducible (edge : V → V → Prop) (dom : V → V → Prop) : Prop :=
  ∀ region : Set V, region.Nonempty →
    (∀ u ∈ region, ∀ v ∈ region, TransGen (fun a b => edge a b ∧ a ∈ region ∧ b ∈ region) u v) →
    ∃ head ∈ region, ∀ v ∈ region, dom head v

variable {dom : V → V → Prop} {forward : V → V → Prop}

/-- What is left of a reducible graph without the edges to a dominator is acyclic. -/
theorem Reducible.acyclic (h : Reducible edge dom) (hedge : ∀ u v, forward u v → edge u v)
    (hforward : ∀ u v, forward u v → ¬ dom v u) (v : V) : ¬ TransGen forward v v := by
  intro hcycle
  -- the vertices on the cycles through `v`
  let region : Set V := { x | TransGen forward v x ∧ TransGen forward x v }
  have hconnected : ∀ a ∈ region, ∀ b ∈ region,
      TransGen (fun x y => edge x y ∧ x ∈ region ∧ y ∈ region) a b := by
    intro a ha b hb
    have hpath : TransGen forward a b := ha.2.trans hb.1
    induction hpath using TransGen.head_induction_on with
    | single hstep => exact .single ⟨hedge _ _ hstep, ha, hb⟩
    | head hstep hpath ih =>
      have hc := And.intro (ha.1.tail hstep) (hpath.trans hb.2)
      exact .head ⟨hedge _ _ hstep, ha, hc⟩ (ih hc)
  obtain ⟨head, ⟨hto, hfrom⟩, hdom⟩ := h region ⟨v, hcycle, hcycle⟩ hconnected
  obtain ⟨u, hu, hstep⟩ := TransGen.tail'_iff.mp hto
  exact hforward u head hstep (hdom u ⟨hcycle.trans_left hu, .head hstep hfrom⟩)

/-- A graph is reducible if only edges to a dominator lead back in some order. -/
theorem reducible_of_rank {edge' : V → V → Prop} (hsub : ∀ u v, edge u v → edge' u v)
    (rank : V → Nat) (hrank : ∀ u v, edge u v → rank u < rank v ∨ Dominates edge' root v u) :
    Reducible edge (Dominates edge' root) := by
  intro region hregion hconnected
  -- the first vertex of the region
  obtain ⟨head, hhead, hfirst⟩ := (measure rank).wf.has_min region hregion
  refine ⟨head, hhead, fun v hv => ?_⟩
  induction hconnected v hv head hhead using TransGen.head_induction_on with
  | single hstep => exact (hrank _ _ hstep.1).resolve_left (hfirst _ hstep.2.1)
  | @head v w hstep _ ih =>
    by_cases hw : w = head
    · subst hw
      exact (hrank _ _ hstep.1).resolve_left (hfirst _ hstep.2.1)
    · exact (ih hstep.2.2).pred hw (hsub _ _ hstep.1)

end Reducible

end Prusti.Lib

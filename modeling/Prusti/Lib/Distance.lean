/-
The distance of a vertex from a root: the number of edges on a shortest path.
-/
import Mathlib.Order.Lattice.Nat
import Prusti.Lib.Dominance

namespace Prusti.Lib

universe u

open Relation

variable {V : Type u} {edge : V → V → Prop} {root u v w : V} {path : List V}

theorem IsPath.concat (h : IsPath edge u v path) (hstep : edge v w) :
    IsPath edge u w (path ++ [w]) := by
  refine ⟨?_, List.getLast?_concat, ?_⟩
  · rw [List.head?_append, h.first, Option.some_or]
  · refine h.steps.append (.singleton w) ?_
    intro x hx y hy
    rw [h.last] at hx
    obtain rfl := Option.some.inj hx
    obtain rfl := Option.some.inj hy
    exact hstep

/-- A path is a single vertex, or it has a last edge. -/
theorem IsPath.cases_concat (h : IsPath edge u w path) :
    path = [w] ∧ u = w ∨ ∃ front v, path = front ++ [w] ∧ IsPath edge u v front ∧ edge v w := by
  obtain ⟨hfirst, hlast, hsteps⟩ := h
  obtain ⟨front, rfl⟩ := List.getLast?_eq_some_iff.mp hlast
  rcases List.eq_nil_or_concat front with rfl | ⟨front, v, rfl⟩
  · exact .inl ⟨rfl, (Option.some.inj hfirst).symm⟩
  · right
    rw [List.concat_eq_append] at hfirst hsteps ⊢
    obtain ⟨hfront, -, hedge⟩ := List.isChain_append.mp hsteps
    refine ⟨front ++ [v], v, rfl, ⟨?_, List.getLast?_concat, hfront⟩, ?_⟩
    · rwa [List.head?_append_of_ne_nil _ (by simp)] at hfirst
    · exact hedge v (by simp) w rfl

theorem IsPath.reaches (h : IsPath edge u v path) : ReflTransGen edge u v := by
  induction path using List.reverseRecOn generalizing v with
  | nil => cases h.first
  | append_singleton front last ih =>
    rcases h.cases_concat with ⟨-, rfl⟩ | ⟨front', w, heq, hfront, hedge⟩
    · exact .refl
    · obtain ⟨rfl, -⟩ := List.append_inj' heq rfl
      exact (ih hfront).tail hedge

/-- The number of edges on a shortest path. -/
noncomputable def distance (edge : V → V → Prop) (root v : V) : Nat :=
  sInf { n | ∃ path, IsPath edge root v path ∧ path.length = n + 1 }

theorem IsPath.distance_lt (h : IsPath edge root v path) : distance edge root v < path.length := by
  obtain ⟨rest, rfl⟩ := List.head?_eq_some_iff.mp h.first
  exact Nat.lt_succ_of_le (Nat.sInf_le ⟨_, h, rfl⟩)

theorem exists_shortest_path (h : ReflTransGen edge root v) :
    ∃ path, IsPath edge root v path ∧ path.length = distance edge root v + 1 := by
  have hpath : ReflTransGen (fun a b => edge a b ∧ True) root v :=
    ReflTransGen.mono (fun _ _ hstep => ⟨hstep, trivial⟩) _ _ h
  obtain ⟨path, hpath, -⟩ := exists_isPath (motive := fun _ => True) trivial hpath
  obtain ⟨rest, rfl⟩ := List.head?_eq_some_iff.mp hpath.first
  exact Nat.sInf_mem (s := { n | ∃ path, IsPath edge root v path ∧ path.length = n + 1 })
    ⟨rest.length, _, hpath, rfl⟩

theorem distance_root : distance edge root root = 0 := by
  have hpath : IsPath edge root root [root] := ⟨rfl, rfl, .singleton root⟩
  exact Nat.lt_one_iff.mp hpath.distance_lt

theorem distance_le_of_edge (h : ReflTransGen edge root u) (hstep : edge u v) :
    distance edge root v ≤ distance edge root u + 1 := by
  obtain ⟨path, hpath, hlength⟩ := exists_shortest_path h
  have hlt := (hpath.concat hstep).distance_lt
  rw [List.length_append, List.length_singleton, hlength] at hlt
  exact Nat.le_of_lt_succ hlt

end Prusti.Lib

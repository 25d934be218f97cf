/-
First-order terms: variables, and nodes with any number of arguments.
-/
import Mathlib.Algebra.Order.BigOperators.Group.List

namespace Prusti.Lib

universe u v w

/-- A term over node labels and variables. -/
inductive Term (σ : Type u) (α : Type v) where
  | var (name : α)
  | node (label : σ) (args : List (Term σ α))
deriving Repr

namespace Term

variable {σ : Type u} {α : Type v} {β : Type w}

mutual

def decEq [DecidableEq σ] [DecidableEq α] : (left right : Term σ α) → Decidable (left = right)
  | var name, var name' => decidable_of_iff (name = name') (by simp)
  | node label args, node label' args' =>
    match decEqEach args args' with
    | isTrue h => decidable_of_iff (label = label') (by simp [h])
    | isFalse h => isFalse (by simp [h])
  | var _, node _ _ => isFalse (by simp)
  | node _ _, var _ => isFalse (by simp)

def decEqEach [DecidableEq σ] [DecidableEq α] :
    (left right : List (Term σ α)) → Decidable (left = right)
  | [], [] => isTrue rfl
  | arg :: args, arg' :: args' =>
    match decEq arg arg', decEqEach args args' with
    | isTrue h, isTrue h' => isTrue (by rw [h, h'])
    | isFalse h, _ => isFalse (by simp [h])
    | _, isFalse h => isFalse (by simp [h])
  | [], _ :: _ => isFalse (by simp)
  | _ :: _, [] => isFalse (by simp)

end

instance [DecidableEq σ] [DecidableEq α] : DecidableEq (Term σ α) := decEq

mutual

/-- Replace all variables at once. -/
def subst (f : α → Term σ β) : Term σ α → Term σ β
  | var name => f name
  | node label args => node label (substEach f args)

def substEach (f : α → Term σ β) : List (Term σ α) → List (Term σ β)
  | [] => []
  | arg :: args => arg.subst f :: substEach f args

end

theorem substEach_eq_map (f : α → Term σ β) (args : List (Term σ α)) :
    substEach f args = args.map (subst f) := by
  induction args with
  | nil => rw [substEach, List.map_nil]
  | cons arg args ih => rw [substEach, ih, List.map_cons]

@[simp] theorem subst_var (f : α → Term σ β) (name : α) :
    (var name : Term σ α).subst f = f name := by
  rw [subst]

@[simp] theorem subst_node (f : α → Term σ β) (label : σ) (args : List (Term σ α)) :
    (node label args).subst f = node label (args.map (subst f)) := by
  rw [subst, substEach_eq_map]

mutual

/-- The number of variables and nodes of a term. -/
def size : Term σ α → Nat
  | var _ => 1
  | node _ args => sizeEach args + 1

def sizeEach : List (Term σ α) → Nat
  | [] => 0
  | arg :: args => arg.size + sizeEach args

end

theorem size_pos (term : Term σ α) : 0 < term.size := by
  cases term with
  | var => rw [size]; exact Nat.one_pos
  | node => rw [size]; exact Nat.succ_pos _

theorem size_le_sizeEach {arg : Term σ α} {args : List (Term σ α)} (h : arg ∈ args) :
    arg.size ≤ sizeEach args := by
  induction args with
  | nil => nomatch h
  | cons first args ih =>
    rw [sizeEach]
    rcases List.mem_cons.mp h with rfl | h
    · exact Nat.le_add_right _ _
    · exact (ih h).trans (Nat.le_add_left _ _)

/-- An argument is smaller than the node. -/
theorem size_lt_of_mem (label : σ) {arg : Term σ α} {args : List (Term σ α)} (h : arg ∈ args) :
    arg.size < (node label args).size := by
  rw [size]
  exact Nat.lt_succ_of_le (size_le_sizeEach h)

/-- A variable of a term. -/
inductive Occurs (name : α) : Term σ α → Prop where
  | var : Occurs name (var name)
  | node (label : σ) {arg : Term σ α} {args : List (Term σ α)} (hmem : arg ∈ args)
      (harg : Occurs name arg) : Occurs name (node label args)

end Term

end Prusti.Lib

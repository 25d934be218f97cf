/-
The traversal of expressions: the sub-expressions that the folders and walkers
go through, the default fold of a node, and recursion and induction over them.
-/
import Prusti.Vir.Expr

namespace Prusti.Vir.Expr

variable {expr : Expr} {parts : List Expr}

/-- The sub-expressions in the order in which they are visited.  Triggers are
not among them. -/
def children : Expr → List Expr
  | localVar _ _ | const _ _ => []
  | variant base _ _ | field base _ _ | addrOf base _ _ | labelledOld _ base _
  | predicateAccessPredicate _ base _ _ | fieldAccessPredicate base _ _
  | unaryOp _ base _ | snapApp base _ => [base]
  | magicWand lhs rhs _ _ => [lhs, rhs]
  | binOp _ left right _ | containerOp _ left right _ => [left, right]
  | letExpr _ expr body _ => [expr, body]
  | inhaleExhale inhaleExpr exhaleExpr _ => [inhaleExpr, exhaleExpr]
  | downcast base enumPlace _ => [base, enumPlace]
  | seq _ elems _ => elems
  | funcApp _ args _ _ _ | domainFuncApp _ args _ => args
  | unfolding _ args base _ _ _ => args ++ [base]
  | cond guard thenExpr elseExpr _ => [guard, thenExpr, elseExpr]
  | forAll _ _ body _ | exist _ _ body _ => [body]

/-- The triggers of a quantifier. -/
def triggers : Expr → List (List Expr)
  | forAll _ triggers _ _ | exist _ triggers _ _ => triggers
  | _ => []

/-- The node with other sub-expressions: what the folders do by default. -/
def rebuild : Expr → List Expr → Expr
  | variant _ index pos, [base] => variant base index pos
  | field _ fld pos, [base] => field base fld pos
  | addrOf _ typ pos, [base] => addrOf base typ pos
  | labelledOld label _ pos, [base] => labelledOld label base pos
  | predicateAccessPredicate name _ perm pos, [arg] =>
    predicateAccessPredicate name arg perm pos
  | fieldAccessPredicate _ perm pos, [base] =>
    fieldAccessPredicate base perm pos
  | unaryOp op _ pos, [arg] => unaryOp op arg pos
  | snapApp _ pos, [expr] => snapApp expr pos
  | magicWand _ _ borrow pos, [lhs, rhs] => magicWand lhs rhs borrow pos
  | binOp op _ _ pos, [left, right] => binOp op left right pos
  | containerOp op _ _ pos, [left, right] => containerOp op left right pos
  | letExpr var _ _ pos, [expr, body] => letExpr var expr body pos
  | inhaleExhale _ _ pos, [inhaleExpr, exhaleExpr] =>
    inhaleExhale inhaleExpr exhaleExpr pos
  | downcast _ _ fld, [base, enumPlace] => downcast base enumPlace fld
  | seq typ _ pos, elems => seq typ elems pos
  | funcApp name _ formalArgs typ pos, args =>
    funcApp name args formalArgs typ pos
  | domainFuncApp func _ pos, args => domainFuncApp func args pos
  | unfolding name _ base perm index pos, parts =>
    unfolding name parts.dropLast (parts.getLastD base) perm index pos
  | cond _ _ _ pos, [guard, thenExpr, elseExpr] =>
    cond guard thenExpr elseExpr pos
  | forAll vars triggers _ pos, [body] => forAll vars triggers body pos
  | exist vars triggers _ pos, [body] => exist vars triggers body pos
  | expr, _ => expr

section Para

variable {α : Type} (alg : Expr → List α → List (List α) → α)

mutual

/-- Recursion over expressions: the value of a node is made of the node, the
values of its sub-expressions and those of its triggers. -/
def para : Expr → α
  | expr@(localVar _ _) | expr@(const _ _) => alg expr [] []
  | expr@(variant base _ _) | expr@(field base _ _) | expr@(addrOf base _ _)
  | expr@(labelledOld _ base _) | expr@(predicateAccessPredicate _ base _ _)
  | expr@(fieldAccessPredicate base _ _) | expr@(unaryOp _ base _)
  | expr@(snapApp base _) => alg expr [para base] []
  | expr@(magicWand left right _ _) | expr@(binOp _ left right _)
  | expr@(containerOp _ left right _) | expr@(letExpr _ left right _)
  | expr@(inhaleExhale left right _) | expr@(downcast left right _) =>
    alg expr [para left, para right] []
  | expr@(seq _ elems _) | expr@(funcApp _ elems _ _ _)
  | expr@(domainFuncApp _ elems _) => alg expr (paraList elems) []
  | expr@(unfolding _ args base _ _ _) =>
    alg expr (paraList args ++ [para base]) []
  | expr@(cond guard thenExpr elseExpr _) =>
    alg expr [para guard, para thenExpr, para elseExpr] []
  | expr@(forAll _ triggers body _) | expr@(exist _ triggers body _) =>
    alg expr [para body] (paraTriggers triggers)

def paraList : List Expr → List α
  | [] => []
  | expr :: rest => para expr :: paraList rest

def paraTriggers : List (List Expr) → List (List α)
  | [] => []
  | trigger :: rest => paraList trigger :: paraTriggers rest

end

theorem paraList_eq_map (exprs : List Expr) : paraList alg exprs = exprs.map (para alg) := by
  induction exprs with
  | nil => rfl
  | cons expr rest ih => rw [paraList, ih, List.map_cons]

theorem paraTriggers_eq_map (triggers : List (List Expr)) :
    paraTriggers alg triggers = triggers.map (List.map (para alg)) := by
  induction triggers with
  | nil => rfl
  | cons trigger rest ih => rw [paraTriggers, ih, List.map_cons, paraList_eq_map]

/-- The recursion, in terms of the sub-expressions. -/
theorem para_eq (expr : Expr) :
    para alg expr = alg expr (expr.children.map (para alg))
      (expr.triggers.map (List.map (para alg))) := by
  cases expr <;> simp [para, children, triggers, paraList_eq_map, paraTriggers_eq_map]

end Para

/-- Replacing the sub-expressions by themselves changes nothing. -/
theorem rebuild_children (expr : Expr) : expr.rebuild expr.children = expr := by
  cases expr <;> simp [rebuild, children]

theorem children_rebuild (h : parts.length = expr.children.length) :
    (expr.rebuild parts).children = parts := by
  cases expr with
  | localVar | const =>
    rw [children, List.length_nil, List.length_eq_zero_iff] at h
    rw [h]
    rfl
  | variant | field | addrOf | labelledOld | predicateAccessPredicate
  | fieldAccessPredicate | unaryOp | snapApp | forAll | exist =>
    obtain ⟨part, rfl⟩ := List.length_eq_one_iff.mp h
    rfl
  | magicWand | binOp | containerOp | letExpr | inhaleExhale | downcast =>
    obtain ⟨left, right, rfl⟩ := List.length_eq_two.mp h
    rfl
  | cond =>
    obtain ⟨first, second, third, rfl⟩ := List.length_eq_three.mp h
    rfl
  | seq | funcApp | domainFuncApp => rfl
  | unfolding name args base =>
    have hne : parts ≠ [] := by
      rintro rfl
      simp [children] at h
    simp only [rebuild, children]
    rw [List.getLastD_eq_getLast?, List.getLast?_eq_some_getLast hne]
    exact List.dropLast_append_getLast hne

theorem rebuild_rebuild {parts' : List Expr} (h : parts.length = expr.children.length)
    (h' : parts'.length = expr.children.length) :
    (expr.rebuild parts).rebuild parts' = expr.rebuild parts' := by
  cases expr with
  | variant | field | addrOf | labelledOld | predicateAccessPredicate
  | fieldAccessPredicate | unaryOp | snapApp | forAll | exist =>
    obtain ⟨part, rfl⟩ := List.length_eq_one_iff.mp h
    obtain ⟨part', rfl⟩ := List.length_eq_one_iff.mp h'
    rfl
  | magicWand | binOp | containerOp | letExpr | inhaleExhale | downcast =>
    obtain ⟨left, right, rfl⟩ := List.length_eq_two.mp h
    obtain ⟨left', right', rfl⟩ := List.length_eq_two.mp h'
    rfl
  | cond =>
    obtain ⟨first, second, third, rfl⟩ := List.length_eq_three.mp h
    obtain ⟨first', second', third', rfl⟩ := List.length_eq_three.mp h'
    rfl
  | localVar | const | seq | funcApp | domainFuncApp => rfl
  | unfolding name args base =>
    have hne : parts' ≠ [] := by
      rintro rfl
      simp [children] at h'
    simp only [rebuild, List.getLastD_eq_getLast?, List.getLast?_eq_some_getLast hne,
      Option.getD_some]

/-- The node without its sub-expressions. -/
def skeleton (expr : Expr) : Expr :=
  expr.rebuild (expr.children.map fun _ => const (.bool true) Position.default)

/-- What does not depend on the sub-expressions stays as it is. -/
theorem apply_rebuild {α : Type*} {f : Expr → α} (hf : ∀ expr, f expr.skeleton = f expr)
    (h : parts.length = expr.children.length) :
    f (expr.rebuild parts) = f expr := by
  rw [← hf, ← hf expr, skeleton, skeleton, children_rebuild h, List.map_const',
    List.map_const', h, rebuild_rebuild h List.length_replicate]

theorem triggers_rebuild (h : parts.length = expr.children.length) :
    (expr.rebuild parts).triggers = expr.triggers :=
  apply_rebuild (by intro expr; cases expr <;> rfl) h

/-- A sub-expression is smaller. -/
theorem sizeOf_child_lt {child : Expr} (h : child ∈ expr.children) :
    sizeOf child < sizeOf expr := by
  cases expr <;> simp [children] at h
  case seq | funcApp | domainFuncApp =>
    have := List.sizeOf_lt_of_mem h
    simp
    omega
  case unfolding =>
    rcases h with h | rfl
    · have := List.sizeOf_lt_of_mem h
      simp
      omega
    · simp
      omega
  case cond => rcases h with rfl | rfl | rfl <;> simp <;> omega
  case magicWand | binOp | containerOp | letExpr | inhaleExhale | downcast =>
    rcases h with rfl | rfl <;> simp <;> omega
  all_goals
    subst h
    simp
    try omega

theorem sizeOf_trigger_lt {part : Expr} {trigger : List Expr} (htrigger : trigger ∈ expr.triggers)
    (hpart : part ∈ trigger) :
    sizeOf part < sizeOf expr := by
  have hlt := List.sizeOf_lt_of_mem hpart
  cases expr <;> simp [triggers] at htrigger
  case forAll | exist =>
    have hlt' := List.sizeOf_lt_of_mem htrigger
    simp
    omega

/-- Induction over expressions. -/
theorem children_induction {P : Expr → Prop}
    (h : ∀ expr : Expr, (∀ child ∈ expr.children, P child) →
      (∀ trigger ∈ expr.triggers, ∀ part ∈ trigger, P part) → P expr)
    (expr : Expr) : P expr := by
  refine h expr ?_ ?_
  · intro child hchild
    have := sizeOf_child_lt hchild
    exact children_induction h child
  · intro trigger htrigger part hpart
    have := sizeOf_trigger_lt htrigger hpart
    exact children_induction h part
termination_by sizeOf expr

end Prusti.Vir.Expr

/-
Where expressions occur: the nodes of an expression, the expressions of a
statement, and the default fold of a statement.
-/
import Prusti.Vir.Children
import Prusti.Vir.Stmt

namespace Prusti.Vir

variable {expr node : Expr}

namespace Expr

/-- All nodes of an expression, those of the triggers included. -/
def nodes (expr : Expr) : List Expr :=
  expr.para fun node parts triggers =>
    node :: (parts.flatten ++ triggers.flatten.flatten)

/-- The nodes that the walkers visit by default: those outside of triggers. -/
def walked (expr : Expr) : List Expr := expr.para fun node parts _ => node :: parts.flatten

theorem nodes_eq (expr : Expr) :
    expr.nodes = expr :: ((expr.children.map nodes).flatten ++
      (expr.triggers.map (List.map nodes)).flatten.flatten) :=
  para_eq _ expr

theorem walked_eq (expr : Expr) : expr.walked = expr :: (expr.children.map walked).flatten :=
  para_eq _ expr

/-- A node is the expression itself, or it is in a sub-expression or in a
trigger. -/
theorem mem_nodes_iff :
    node ∈ expr.nodes ↔ node = expr ∨
      (∃ child ∈ expr.children, node ∈ child.nodes) ∨
        ∃ trigger ∈ expr.triggers, ∃ part ∈ trigger, node ∈ part.nodes := by
  rw [nodes_eq]
  simp only [List.mem_cons, List.mem_append, List.mem_flatten, List.mem_map]
  constructor
  · rintro (rfl | ⟨_, ⟨child, hchild, rfl⟩, hnode⟩ | ⟨_, ⟨_, ⟨trigger, ht, rfl⟩, hmem⟩, hnode⟩)
    · exact .inl rfl
    · exact .inr (.inl ⟨child, hchild, hnode⟩)
    · obtain ⟨part, hpart, rfl⟩ := List.mem_map.mp hmem
      exact .inr (.inr ⟨trigger, ht, part, hpart, hnode⟩)
  · rintro (rfl | ⟨child, hchild, hnode⟩ | ⟨trigger, ht, part, hpart, hnode⟩)
    · exact .inl rfl
    · exact .inr (.inl ⟨_, ⟨child, hchild, rfl⟩, hnode⟩)
    · exact .inr (.inr ⟨_, ⟨_, ⟨trigger, ht, rfl⟩, List.mem_map_of_mem hpart⟩, hnode⟩)

theorem mem_walked_iff :
    node ∈ expr.walked ↔ node = expr ∨ ∃ child ∈ expr.children, node ∈ child.walked := by
  rw [walked_eq]
  simp only [List.mem_cons, List.mem_flatten, List.mem_map]
  constructor
  · rintro (rfl | ⟨_, ⟨child, hchild, rfl⟩, hnode⟩)
    · exact .inl rfl
    · exact .inr ⟨child, hchild, hnode⟩
  · rintro (rfl | ⟨child, hchild, hnode⟩)
    · exact .inl rfl
    · exact .inr ⟨_, ⟨child, hchild, rfl⟩, hnode⟩

theorem isLocal_rebuild {parts : List Expr} (h : parts.length = expr.children.length) :
    (expr.rebuild parts).isLocal = expr.isLocal :=
  apply_rebuild (by intro expr; cases expr <;> rfl) h

/-- The nodes that the walkers miss: those of the triggers. -/
def hidden (expr : Expr) : List Expr :=
  expr.walked.flatMap fun node => node.triggers.flatten.flatMap nodes

theorem mem_hidden_iff :
    node ∈ expr.hidden ↔ ∃ inner ∈ expr.walked, ∃ trigger ∈ inner.triggers,
      ∃ part ∈ trigger, node ∈ part.nodes := by
  simp only [hidden, List.mem_flatMap, List.mem_flatten]
  constructor
  · rintro ⟨inner, hinner, part, ⟨trigger, htrigger, hpart⟩, hnode⟩
    exact ⟨inner, hinner, trigger, htrigger, part, hpart, hnode⟩
  · rintro ⟨inner, hinner, trigger, htrigger, part, hpart, hnode⟩
    exact ⟨inner, hinner, part, ⟨trigger, htrigger, hpart⟩, hnode⟩

/-- A node is visited by the walkers or it is inside of a trigger. -/
theorem mem_nodes_iff_walked_or_hidden :
    node ∈ expr.nodes ↔ node ∈ expr.walked ∨ node ∈ expr.hidden := by
  induction expr using Expr.children_induction with
  | h expr ih _ =>
  rw [mem_nodes_iff, mem_walked_iff, mem_hidden_iff]
  constructor
  · rintro (rfl | ⟨child, hchild, hnode⟩ | ⟨trigger, htrigger, part, hpart, hnode⟩)
    · exact .inl (.inl rfl)
    · rcases (ih child hchild).mp hnode with hnode | hnode
      · exact .inl (.inr ⟨child, hchild, hnode⟩)
      · obtain ⟨inner, hinner, hrest⟩ := mem_hidden_iff.mp hnode
        exact .inr ⟨inner, mem_walked_iff.mpr (.inr ⟨child, hchild, hinner⟩), hrest⟩
    · exact .inr ⟨expr, mem_walked_iff.mpr (.inl rfl), trigger, htrigger, part, hpart, hnode⟩
  · rintro ((rfl | ⟨child, hchild, hnode⟩) | ⟨inner, hinner, trigger, htrigger, hrest⟩)
    · exact .inl rfl
    · exact .inr (.inl ⟨child, hchild, (ih child hchild).mpr (.inl hnode)⟩)
    · rcases mem_walked_iff.mp hinner with rfl | ⟨child, hchild, hinner⟩
      · exact .inr (.inr ⟨trigger, htrigger, hrest⟩)
      · have hhidden : node ∈ child.hidden :=
          mem_hidden_iff.mpr ⟨inner, hinner, trigger, htrigger, hrest⟩
        exact .inr (.inl ⟨child, hchild, (ih child hchild).mpr (.inr hhidden)⟩)

end Expr

namespace Stmt

/-- The expressions of a statement itself, in the order of the walkers. -/
def ownExprs : Stmt → List Expr
  | comment _ | label _ | beginFrame | endFrame | expireBorrows _ => []
  | inhale expr | exhale expr _ | assert expr _ | obtain expr _
  | packageMagicWand expr _ _ _ _ | applyMagicWand expr _ | ite expr _ _
  | downcast expr _ => [expr]
  | assign lhs rhs _ | transferPerm lhs rhs _ => [lhs, rhs]
  | methodCall _ args _ | fold _ args _ _ _ | unfold _ args _ _ => args

mutual

/-- The expressions of a statement and of its nested statements. -/
def exprs : Stmt → List Expr
  | packageMagicWand wand stmts _ _ _ => wand :: allExprs stmts
  | ite guard thenStmts elseStmts =>
    guard :: (allExprs thenStmts ++ allExprs elseStmts)
  | stmt => stmt.ownExprs

def allExprs : List Stmt → List Expr
  | [] => []
  | stmt :: stmts => exprs stmt ++ allExprs stmts

end

mutual

/-- A statement and its nested statements. -/
def nested : Stmt → List Stmt
  | packageMagicWand wand stmts lhsLabel vars pos =>
    packageMagicWand wand stmts lhsLabel vars pos :: allNested stmts
  | ite guard thenStmts elseStmts =>
    ite guard thenStmts elseStmts :: (allNested thenStmts ++ allNested elseStmts)
  | stmt => [stmt]

def allNested : List Stmt → List Stmt
  | [] => []
  | stmt :: stmts => nested stmt ++ allNested stmts

end

section MapExprs

variable (f : Expr → Expr)

mutual

/-- What the folders of statements do by default: the expressions are folded,
also in the nested statements. -/
def mapExprs : Stmt → Stmt
  | inhale expr => inhale (f expr)
  | exhale expr pos => exhale (f expr) pos
  | assert expr pos => assert (f expr) pos
  | methodCall name args targets => methodCall name (args.map f) targets
  | assign lhs rhs kind => assign (f lhs) (f rhs) kind
  | fold name args perm index pos => fold name (args.map f) perm index pos
  | unfold name args perm index => unfold name (args.map f) perm index
  | obtain expr pos => obtain (f expr) pos
  | transferPerm lhs rhs unchecked => transferPerm (f lhs) (f rhs) unchecked
  | packageMagicWand wand stmts lhsLabel vars pos =>
    packageMagicWand (f wand) (mapAllExprs stmts) lhsLabel vars pos
  | applyMagicWand wand pos => applyMagicWand (f wand) pos
  | ite guard thenStmts elseStmts =>
    ite (f guard) (mapAllExprs thenStmts) (mapAllExprs elseStmts)
  | downcast enumPlace fld => downcast (f enumPlace) fld
  | stmt => stmt

def mapAllExprs : List Stmt → List Stmt
  | [] => []
  | stmt :: stmts => mapExprs stmt :: mapAllExprs stmts

end

mutual

/-- Every expression of the statement is folded once. -/
theorem exprs_mapExprs (stmt : Stmt) : (stmt.mapExprs f).exprs = stmt.exprs.map f := by
  cases stmt with
  | packageMagicWand wand stmts => rw [mapExprs, exprs, exprs, List.map_cons, allExprs_mapAllExprs]
  | ite guard thenStmts elseStmts =>
    rw [mapExprs, exprs, exprs, List.map_cons, List.map_append,
      allExprs_mapAllExprs, allExprs_mapAllExprs]
  | _ => rfl

theorem allExprs_mapAllExprs (stmts : List Stmt) :
    allExprs (mapAllExprs f stmts) = (allExprs stmts).map f := by
  cases stmts with
  | nil => rfl
  | cons stmt stmts =>
    rw [mapAllExprs, allExprs, allExprs, List.map_append, exprs_mapExprs, allExprs_mapAllExprs]

end

theorem mapAllExprs_eq_map (stmts : List Stmt) : mapAllExprs f stmts = stmts.map (mapExprs f) := by
  induction stmts with
  | nil => rfl
  | cons stmt stmts ih => rw [mapAllExprs, ih, List.map_cons]

end MapExprs

theorem mem_allExprs_iff {stmts : List Stmt} :
    expr ∈ allExprs stmts ↔ ∃ stmt ∈ stmts, expr ∈ stmt.exprs := by
  induction stmts with
  | nil => simp [allExprs]
  | cons stmt stmts ih => rw [allExprs, List.mem_append, ih]; simp

theorem allExprs_append (front back : List Stmt) :
    allExprs (front ++ back) = allExprs front ++ allExprs back := by
  induction front with
  | nil => rfl
  | cons stmt front ih => rw [List.cons_append, allExprs, allExprs, ih, List.append_assoc]

theorem allNested_append (front back : List Stmt) :
    allNested (front ++ back) = allNested front ++ allNested back := by
  induction front with
  | nil => rfl
  | cons stmt front ih => rw [List.cons_append, allNested, allNested, ih, List.append_assoc]

end Stmt

end Prusti.Vir

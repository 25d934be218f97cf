/-
The variables that occur free in expressions and statements.
-/
import Prusti.Vir.Nodes
import Prusti.Lib.Lists

namespace Prusti.Vir

variable {expr child : Expr} {parts : List Expr} {name : String}

namespace Expr

/-- The variables that a node binds in all its parts, triggers included. -/
def boundNames : Expr → List String
  | forAll vars _ _ _ | exist vars _ _ _ => vars.map (·.name)
  | _ => []

/-- The free variables of a node, by those of its sub-expressions and triggers. -/
def freeNode (node : Expr) (parts : List (List String))
    (triggers : List (List (List String))) : List String :=
  match node, parts with
  | localVar var _, _ => [var.name]
  | letExpr var _ _ _, [expr, body] => expr ++ body.filter (· != var.name)
  | node, parts => (parts.flatten ++ triggers.flatten.flatten).filter fun name =>
    !node.boundNames.contains name

/-- The variables that occur free in an expression, also in its triggers. -/
def free (expr : Expr) : List String := expr.para freeNode

theorem free_eq (expr : Expr) :
    expr.free = expr.freeNode (expr.children.map free) (expr.triggers.map (List.map free)) :=
  para_eq _ expr

/-- The names that are bound in each sub-expression. -/
def binders : Expr → List (List String)
  | letExpr var _ _ _ => [[], [var.name]]
  | forAll vars _ _ _ | exist vars _ _ _ => [vars.map (·.name)]
  | expr => expr.children.map fun _ => []

def isBinder : Expr → Bool
  | letExpr _ _ _ _ | forAll _ _ _ _ | exist _ _ _ _ => true
  | _ => false

theorem length_binders (expr : Expr) : expr.binders.length = expr.children.length := by
  cases expr <;> simp [binders, children]

theorem zip_map_snd_binders (expr : Expr) :
    (expr.binders.zip expr.children).map Prod.snd = expr.children :=
  List.map_snd_zip (length_binders expr).ge

theorem binders_eq_map (h : expr.isBinder = false) :
    expr.binders = expr.children.map fun _ => [] := by
  cases expr <;> first
    | rfl
    | cases h

theorem binders_rebuild (h : parts.length = expr.children.length) :
    (expr.rebuild parts).binders = expr.binders := by
  refine apply_rebuild ?_ h
  intro expr
  cases expr <;> simp [skeleton, rebuild, binders, children]

/-- The parts of a node with the names that it binds in them. -/
theorem mem_binders_zip (h : expr.isBinder = false) (hchild : child ∈ expr.children) :
    ([], child) ∈ expr.binders.zip expr.children := by
  rw [binders_eq_map h, List.zip_map_left, List.mem_map]
  obtain ⟨index, hindex⟩ := List.mem_iff_getElem?.mp hchild
  refine ⟨(child, child), List.mem_iff_getElem?.mpr ⟨index, ?_⟩, rfl⟩
  exact List.getElem?_zip_eq_some.mpr ⟨hindex, hindex⟩

theorem exists_mem_binders_zip (h : child ∈ expr.children) :
    ∃ bound, (bound, child) ∈ expr.binders.zip expr.children := by
  obtain ⟨index, hindex⟩ := List.mem_iff_getElem?.mp h
  have hlt : index < expr.binders.length := by
    rw [length_binders]
    exact (List.getElem?_eq_some_iff.mp hindex).1
  exact ⟨expr.binders[index], List.mem_iff_getElem?.mpr ⟨index,
    List.getElem?_zip_eq_some.mpr ⟨List.getElem?_eq_getElem hlt, hindex⟩⟩⟩

/-- The variable that a node is. -/
def ownFree : Expr → List String
  | localVar var _ => [var.name]
  | _ => []

theorem mem_zip_of_forall₂ {R : Expr → Expr → Prop} {bounds : List (List String)}
    {children : List Expr} (h : List.Forall₂ R children parts) {bound : List String} {part : Expr}
    (hmem : (bound, part) ∈ bounds.zip parts) :
    ∃ child, (bound, child) ∈ bounds.zip children ∧ R child part := by
  obtain ⟨index, hindex⟩ := List.mem_iff_getElem?.mp hmem
  rw [List.getElem?_zip_eq_some] at hindex
  obtain ⟨child, hchild, hrel⟩ := Lib.forall₂_getElem? h.flip hindex.2
  exact ⟨child, List.mem_iff_getElem?.mpr ⟨index,
    List.getElem?_zip_eq_some.mpr ⟨hindex.1, hchild⟩⟩, hrel⟩

/-- The free variables of a node that is no binder. -/
theorem mem_free_iff_of_not_binder (h : expr.isBinder = false) :
    name ∈ expr.free ↔ name ∈ expr.ownFree ∨ ∃ child ∈ expr.children, name ∈ child.free := by
  rw [free_eq]
  cases expr with
  | localVar var pos => simp [freeNode, ownFree, children]
  | letExpr | forAll | exist => cases h
  | _ => simp [freeNode, ownFree, children, boundNames, triggers]

theorem mem_free_iff :
    name ∈ expr.free ↔ name ∈ expr.ownFree ∨
      (∃ bound child, (bound, child) ∈ expr.binders.zip expr.children ∧
        name ∈ child.free ∧ name ∉ bound) ∨
      ∃ trigger ∈ expr.triggers, ∃ part ∈ trigger, name ∈ part.free ∧ name ∉ expr.boundNames := by
  cases hbinder : expr.isBinder with
  | true =>
    rw [free_eq]
    cases expr with
    | letExpr => simp [freeNode, ownFree, binders, children, triggers, or_and_right, exists_or]
    | forAll | exist => simp [freeNode, ownFree, binders, children, boundNames, triggers, and_assoc]
    | _ => cases hbinder
  | false =>
    have htriggers : expr.triggers = [] := by
      cases expr <;> first
        | rfl
        | cases hbinder
    have hparts : (∃ child ∈ expr.children, name ∈ child.free) ↔
        ∃ bound child, (bound, child) ∈ expr.binders.zip expr.children ∧
          name ∈ child.free ∧ name ∉ bound := by
      constructor
      · rintro ⟨child, hchild, hfree⟩
        exact ⟨[], child, mem_binders_zip hbinder hchild, hfree, List.not_mem_nil⟩
      · rintro ⟨bound, child, hmem, hfree, _⟩
        exact ⟨child, (List.of_mem_zip hmem).2, hfree⟩
    rw [mem_free_iff_of_not_binder hbinder, hparts, htriggers]
    simp

/-- What is free in a sub-expression and not bound there is free. -/
theorem mem_free_of_child {bound : List String}
    (hmem : (bound, child) ∈ expr.binders.zip expr.children) (hfree : name ∈ child.free)
    (hbound : name ∉ bound) : name ∈ expr.free := by
  rw [mem_free_iff]
  exact .inr (.inl ⟨bound, child, hmem, hfree, hbound⟩)

/-- The free variables of a node with other sub-expressions. -/
theorem mem_free_rebuild (new : String → Prop)
    (h : List.Forall₂ (fun child part => ∀ name ∈ part.free, name ∈ child.free ∨ new name)
      expr.children parts) (hfree : name ∈ (expr.rebuild parts).free) :
    name ∈ expr.free ∨ new name := by
  have hlength := h.length_eq.symm
  have hown : (expr.rebuild parts).ownFree = expr.ownFree :=
    apply_rebuild (by intro expr; cases expr <;> rfl) hlength
  have hnames : (expr.rebuild parts).boundNames = expr.boundNames :=
    apply_rebuild (by intro expr; cases expr <;> rfl) hlength
  rw [mem_free_iff, children_rebuild hlength, binders_rebuild hlength,
    triggers_rebuild hlength, hown, hnames] at hfree
  rcases hfree with hself | ⟨bound, part, hmem, hname, hbound⟩ | htrigger
  · left
    rw [mem_free_iff]
    exact .inl hself
  · obtain ⟨child, hchild, hrel⟩ := mem_zip_of_forall₂ h hmem
    apply (hrel name hname).imp_left
    intro hname
    exact mem_free_of_child hchild hname hbound
  · left
    rw [mem_free_iff]
    exact .inr (.inr htrigger)

/-- The names that a node mentions itself. -/
def ownNames : Expr → List String
  | localVar var _ | letExpr var _ _ _ => [var.name]
  | expr => expr.boundNames

/-- All names of variables in an expression, those of the triggers included. -/
def names (expr : Expr) : List String :=
  expr.para fun node parts triggers =>
    node.ownNames ++ (parts.flatten ++ triggers.flatten.flatten)

theorem mem_names_iff :
    name ∈ expr.names ↔ name ∈ expr.ownNames ∨ (∃ child ∈ expr.children, name ∈ child.names) ∨
      ∃ trigger ∈ expr.triggers, ∃ part ∈ trigger, name ∈ part.names := by
  rw [names, para_eq]
  simp [names, and_assoc]

theorem names_localVar (var : LocalVar) (pos : Position) :
    (localVar var pos).names = [var.name] := by
  rw [names, para_eq]
  rfl

theorem names_child (h : child ∈ expr.children) : child.names ⊆ expr.names := by
  intro name hname
  rw [mem_names_iff]
  exact .inr (.inl ⟨child, h, hname⟩)

theorem free_subset_names (expr : Expr) : expr.free ⊆ expr.names := by
  induction expr using Expr.children_induction with
  | h expr ih ihTriggers =>
  intro name hname
  rw [mem_free_iff] at hname
  rcases hname with hself | ⟨bound, child, hmem, hname, _⟩ |
    ⟨trigger, htrigger, part, hpart, hname, _⟩
  · cases expr with
    | localVar =>
      rw [mem_names_iff]
      exact .inl hself
    | _ => cases hself
  · have hchild := (List.of_mem_zip hmem).2
    exact names_child hchild (ih child hchild hname)
  · rw [mem_names_iff]
    exact .inr (.inr ⟨trigger, htrigger, part, hpart, ihTriggers trigger htrigger part hpart hname⟩)

/-- The names of a node with other sub-expressions. -/
theorem mem_names_rebuild (new : String → Prop)
    (h : List.Forall₂ (fun child part => ∀ name ∈ part.names, name ∈ child.names ∨ new name)
      expr.children parts) (hname : name ∈ (expr.rebuild parts).names) :
    name ∈ expr.names ∨ new name := by
  have hlength := h.length_eq.symm
  have hown : (expr.rebuild parts).ownNames = expr.ownNames :=
    apply_rebuild (by intro expr; cases expr <;> rfl) hlength
  rw [mem_names_iff, children_rebuild hlength, triggers_rebuild hlength, hown] at hname
  rcases hname with hself | ⟨part, hpart, hname⟩ | htrigger
  · left
    rw [mem_names_iff]
    exact .inl hself
  · obtain ⟨child, hchild, hrel⟩ := Lib.exists_of_forall₂_mem_right h hpart
    exact (hrel name hname).imp_left (names_child hchild ·)
  · left
    rw [mem_names_iff]
    exact .inr (.inr htrigger)

theorem freeNode_rebuild (h : parts.length = expr.children.length) (names : List (List String))
    (triggerNames : List (List (List String))) :
    (expr.rebuild parts).freeNode names triggerNames = expr.freeNode names triggerNames := by
  refine apply_rebuild (f := fun expr => expr.freeNode names triggerNames) ?_ h
  intro expr
  cases expr with
  | letExpr => rcases names with _ | ⟨first, _ | ⟨second, _ | ⟨third, rest⟩⟩⟩ <;> rfl
  | _ => rfl

/-- The free variables of a node whose sub-expressions have been folded. -/
theorem free_rebuild (expr : Expr) (f : Expr → Expr) :
    (expr.rebuild (expr.children.map f)).free =
      expr.freeNode (expr.children.map fun child => (f child).free)
        (expr.triggers.map (List.map free)) := by
  have hlength : (expr.children.map f).length = expr.children.length := List.length_map f
  rw [free_eq, children_rebuild hlength, triggers_rebuild hlength,
    freeNode_rebuild hlength, List.map_map]
  rfl

end Expr

namespace Stmt

section FreeBy

variable (names : Expr → List String)

mutual

/-- The variables that occur free in a statement, by those of its expressions.
The ghost variables of a package statement are in scope in its nested
statements. -/
def freeBy : Stmt → List String
  | methodCall _ args targets => args.flatMap names ++ targets.map (·.name)
  | packageMagicWand wand stmts _ vars _ =>
    names wand ++ (allFreeBy stmts).filter fun name =>
      !(vars.map (·.name)).contains name
  | ite guard thenStmts elseStmts =>
    names guard ++ (allFreeBy thenStmts ++ allFreeBy elseStmts)
  | stmt => stmt.ownExprs.flatMap names

def allFreeBy : List Stmt → List String
  | [] => []
  | stmt :: stmts => freeBy stmt ++ allFreeBy stmts

end

mutual

/-- The variables after a fold. -/
theorem freeBy_mapExprs (f : Expr → Expr) (stmt : Stmt) :
    (stmt.mapExprs f).freeBy names = stmt.freeBy fun expr => names (f expr) := by
  cases stmt with
  | packageMagicWand wand stmts => rw [mapExprs, freeBy, freeBy, allFreeBy_mapAllExprs f stmts]
  | ite guard thenStmts elseStmts =>
    rw [mapExprs, freeBy, freeBy, allFreeBy_mapAllExprs f thenStmts,
      allFreeBy_mapAllExprs f elseStmts]
  | methodCall | fold | unfold => simp [mapExprs, freeBy, ownExprs, List.flatMap_map]
  | _ => simp [mapExprs, freeBy, ownExprs]

theorem allFreeBy_mapAllExprs (f : Expr → Expr) (stmts : List Stmt) :
    allFreeBy names (mapAllExprs f stmts) = allFreeBy (fun expr => names (f expr)) stmts := by
  cases stmts with
  | nil => rfl
  | cons stmt stmts =>
    rw [mapAllExprs, allFreeBy, allFreeBy, freeBy_mapExprs f stmt, allFreeBy_mapAllExprs f stmts]

end

end FreeBy

mutual

/-- The ghost variables that the package statements declare. -/
def packageVars : Stmt → List LocalVar
  | packageMagicWand _ stmts _ vars _ => vars ++ allPackageVars stmts
  | ite _ thenStmts elseStmts => allPackageVars thenStmts ++ allPackageVars elseStmts
  | _ => []

def allPackageVars : List Stmt → List LocalVar
  | [] => []
  | stmt :: stmts => packageVars stmt ++ allPackageVars stmts

end

mutual

theorem packageVars_mapExprs (f : Expr → Expr) (stmt : Stmt) :
    (stmt.mapExprs f).packageVars = stmt.packageVars := by
  cases stmt with
  | packageMagicWand wand stmts =>
    rw [mapExprs, packageVars, packageVars, allPackageVars_mapAllExprs f stmts]
  | ite guard thenStmts elseStmts =>
    rw [mapExprs, packageVars, packageVars, allPackageVars_mapAllExprs f thenStmts,
      allPackageVars_mapAllExprs f elseStmts]
  | _ => rfl

theorem allPackageVars_mapAllExprs (f : Expr → Expr) (stmts : List Stmt) :
    allPackageVars (mapAllExprs f stmts) = allPackageVars stmts := by
  cases stmts with
  | nil => rfl
  | cons stmt stmts =>
    rw [mapAllExprs, allPackageVars, allPackageVars, packageVars_mapExprs f stmt,
      allPackageVars_mapAllExprs f stmts]

end

end Stmt

end Prusti.Vir

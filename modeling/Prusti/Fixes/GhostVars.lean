/-
The renaming of ghost variables: the variables that a package statement declares get
names of their own, and so do their occurrences in the body of the statement.
-/
import Prusti.Vir.Free
import Prusti.Cfg.Exprs

namespace Prusti.Fixes

open Prusti.Lib Prusti.Vir Prusti.Cfg

/-- The new name of a variable of a package statement. -/
def fixName (packageStmtCount : Nat) (localVar : LocalVar) : LocalVar :=
  { localVar with name := localVar.name ++ ("$p" ++ toString packageStmtCount) }

/-- The number of the package statement, and its variables when the fixer is inside
of it. -/
structure GhostVarFixer where
  packageStmtCount : Nat
  vars : Option (HashSet LocalVar)

namespace GhostVarFixer

def renames (fixer : GhostVarFixer) (localVar : LocalVar) : Bool :=
  match fixer.vars with
  | some vars => vars.contains localVar
  | none => false

def foldExpr (fixer : GhostVarFixer) (expr : Expr) : Expr :=
  expr.para fun node parts _ =>
    match node with
    | .localVar var pos =>
      if fixer.renames var then .localVar (fixName fixer.packageStmtCount var) pos
      else node
    | _ => node.rebuild parts

mutual

/-- The new statement and the fixer after it; `none` stands for the panic when the
variables of a package statement are gone after its body. -/
def foldStmt (order : IterOrder) (fixer : GhostVarFixer) : Stmt → Option (Stmt × GhostVarFixer)
  | .packageMagicWand wand body label vars pos => do
    let inner : GhostVarFixer := { fixer with vars := some (HashSet.ofList vars) }
    let (newBody, after) ← foldStmts order inner body
    let unfixedVars ← after.vars
    let newVars := (order.iter after.packageStmtCount unfixedVars.keys).map
      (fixName after.packageStmtCount)
    some (.packageMagicWand (fixer.foldExpr wand) newBody label newVars pos,
      ⟨after.packageStmtCount + 1, none⟩)
  | .ite guard thenStmts elseStmts => do
    let (newThen, between) ← foldStmts order fixer thenStmts
    let (newElse, after) ← foldStmts order between elseStmts
    some (.ite (fixer.foldExpr guard) newThen newElse, after)
  | stmt => some (stmt.mapExprs fixer.foldExpr, fixer)

def foldStmts (order : IterOrder) (fixer : GhostVarFixer) :
    List Stmt → Option (List Stmt × GhostVarFixer)
  | [] => some ([], fixer)
  | stmt :: stmts => do
    let (newStmt, between) ← foldStmt order fixer stmt
    let (newStmts, after) ← foldStmts order between stmts
    some (newStmt :: newStmts, after)

end

def foldBlocks (order : IterOrder) (fixer : GhostVarFixer) :
    List CfgBlock → Option (List CfgBlock × GhostVarFixer)
  | [] => some ([], fixer)
  | block :: blocks => do
    let (stmts, between) ← fixer.foldStmts order block.stmts
    let (newBlocks, after) ← foldBlocks order between blocks
    some ({ block with stmts } :: newBlocks, after)

end GhostVarFixer

/-- Rename all variables declared inside package statements so that they are unique. -/
def fixGhostVars (order : IterOrder) (method : CfgMethod) : Option CfgMethod := do
  let (basicBlocks, _) ← GhostVarFixer.foldBlocks order ⟨0, none⟩ method.basicBlocks
  some { method with basicBlocks }

end Prusti.Fixes

namespace Prusti.Vir.Stmt

mutual

/-- The package statements that are not inside of another one: their variables and
bodies. -/
def packages : Stmt → List (List LocalVar × List Stmt)
  | packageMagicWand _ body _ vars _ => [(vars, body)]
  | ite _ thenStmts elseStmts => allPackages thenStmts ++ allPackages elseStmts
  | _ => []

def allPackages : List Stmt → List (List LocalVar × List Stmt)
  | [] => []
  | stmt :: stmts => packages stmt ++ allPackages stmts

end

end Prusti.Vir.Stmt

namespace Prusti.Fixes

open Prusti.Lib Prusti.Vir Prusti.Cfg

section Rename

variable (ghost : LocalVar → Bool) (count : Nat)

/-- The names that are bound inside of a binder. -/
def bind (bound : String → Bool) (vars : List LocalVar) : String → Bool :=
  fun name => bound name || (vars.map (·.name)).contains name

def renameNode (node : Expr) (parts : List ((String → Bool) → Expr))
    (triggers : List (List ((String → Bool) → Expr))) (bound : String → Bool) : Expr :=
  match node, parts with
  | .localVar var pos, _ =>
    if ghost var && !bound var.name then .localVar (fixName count var) pos else node
  | .forAll vars _ _ pos, [body] =>
    .forAll vars (triggers.map (List.map fun part => part (bind bound vars)))
      (body (bind bound vars)) pos
  | .exist vars _ _ pos, [body] =>
    .exist vars (triggers.map (List.map fun part => part (bind bound vars)))
      (body (bind bound vars)) pos
  | .letExpr var _ _ pos, [expr, body] =>
    .letExpr var (expr bound) (body (bind bound [var])) pos
  | _, _ => node.rebuild (parts.map fun part => part bound)

/-- The renaming of the free occurrences of the ghost variables, in triggers too. -/
def renameExpr (expr : Expr) : (String → Bool) → Expr := expr.para (renameNode ghost count)

mutual

/-- The renaming of the ghost variables in a statement of the body: in its expressions
and among the targets of calls. -/
def renameStmt : Stmt → Stmt
  | .methodCall name args targets =>
    .methodCall name (args.map fun arg => renameExpr ghost count arg fun _ => false)
      (targets.map fun target => if ghost target then fixName count target else target)
  | .ite guard thenStmts elseStmts =>
    .ite (renameExpr ghost count guard fun _ => false) (renameStmts thenStmts)
      (renameStmts elseStmts)
  | stmt => stmt.mapExprs fun expr => renameExpr ghost count expr fun _ => false

def renameStmts : List Stmt → List Stmt
  | [] => []
  | stmt :: stmts => renameStmt stmt :: renameStmts stmts

end

def mentionsNode (node : Expr) (parts : List ((String → Bool) → Bool))
    (triggers : List (List ((String → Bool) → Bool))) (bound : String → Bool) : Bool :=
  match node, parts with
  | .localVar var _, _ => ghost var && !bound var.name
  | .forAll vars _ _ _, _ | .exist vars _ _ _, _ =>
    (triggers.any fun trigger => trigger.any fun part => part (bind bound vars)) ||
      parts.any fun part => part (bind bound vars)
  | .letExpr var _ _ _, [expr, body] => expr bound || body (bind bound [var])
  | _, _ => parts.any fun part => part bound

/-- Does a ghost variable occur free? -/
def mentions (expr : Expr) : (String → Bool) → Bool := expr.para (mentionsNode ghost)

def missedNode (node : Expr) (parts : List ((String → Bool) → Bool))
    (bound : String → Bool) : Bool :=
  match node, parts with
  | .localVar var _, _ => ghost var && bound var.name
  | .forAll vars triggers _ _, _ | .exist vars triggers _ _, _ =>
    (triggers.any fun trigger => trigger.any fun part =>
      mentions ghost part (bind bound vars)) ||
      parts.any fun part => part (bind bound vars)
  | .letExpr var _ _ _, [expr, body] => expr bound || body (bind bound [var])
  | _, _ => parts.any fun part => part bound

/-- Is there an occurrence that the fixer treats in another way: a ghost variable in a
trigger, or a bound variable that looks like a ghost variable? -/
def missed (expr : Expr) : (String → Bool) → Bool :=
  expr.para fun node parts _ => missedNode ghost node parts

mutual

/-- The same for the statements of a body, where the targets of calls count too. -/
def missedStmt : Stmt → Bool
  | .methodCall _ args targets =>
    (args.any fun arg => missed ghost arg fun _ => false) || targets.any ghost
  | .ite guard thenStmts elseStmts =>
    missed ghost guard (fun _ => false) || missedStmts thenStmts || missedStmts elseStmts
  | stmt => stmt.ownExprs.any fun expr => missed ghost expr fun _ => false

def missedStmts : List Stmt → Bool
  | [] => false
  | stmt :: stmts => missedStmt stmt || missedStmts stmts

end

variable {ghost count}

theorem renameExpr_eq (expr : Expr) (bound : String → Bool) :
    renameExpr ghost count expr bound =
      renameNode ghost count expr (expr.children.map (renameExpr ghost count))
        (expr.triggers.map (List.map (renameExpr ghost count))) bound := by
  rw [renameExpr, Expr.para_eq]
  rfl

theorem mentions_eq (expr : Expr) (bound : String → Bool) :
    mentions ghost expr bound = mentionsNode ghost expr (expr.children.map (mentions ghost))
        (expr.triggers.map (List.map (mentions ghost))) bound := by
  rw [mentions, Expr.para_eq]
  rfl

theorem missed_eq (expr : Expr) (bound : String → Bool) :
    missed ghost expr bound = missedNode ghost expr (expr.children.map (missed ghost)) bound := by
  rw [missed, Expr.para_eq]
  rfl

theorem foldExpr_eq (fixer : GhostVarFixer) (expr : Expr) :
    fixer.foldExpr expr =
      match expr with
      | .localVar var pos =>
        if fixer.renames var then .localVar (fixName fixer.packageStmtCount var) pos
        else .localVar var pos
      | _ => expr.rebuild (expr.children.map fixer.foldExpr) := by
  rw [GhostVarFixer.foldExpr, Expr.para_eq]
  cases expr <;> rfl

theorem fixName_ne (var : LocalVar) : fixName count var ≠ var := by
  intro h
  have hlength := congrArg (fun var : LocalVar => var.name.length) h
  simp [fixName, String.length_append] at hlength

theorem map_eq_self_iff {α : Type} {f : α → α} {list : List α} :
    list.map f = list ↔ ∀ elem ∈ list, f elem = elem := by
  constructor
  · intro h
    exact List.map_inj_left.mp (h.trans (List.map_id list).symm)
  · intro h
    exact (List.map_congr_left h).trans (List.map_id list)

theorem rebuild_inj {expr : Expr} {parts parts' : List Expr}
    (h : parts.length = expr.children.length) (h' : parts'.length = expr.children.length) :
    expr.rebuild parts = expr.rebuild parts' ↔ parts = parts' := by
  constructor
  · intro heq
    rw [← Expr.children_rebuild h, heq, Expr.children_rebuild h']
  · intro heq
    rw [heq]

/-- A node that binds nothing keeps itself if all its parts do. -/
theorem rebuild_map_eq_self_iff {expr : Expr} {f : Expr → Expr} :
    expr.rebuild (expr.children.map f) = expr ↔ ∀ child ∈ expr.children, f child = child := by
  have hinj : expr.rebuild (expr.children.map f) = expr.rebuild expr.children ↔
      expr.children.map f = expr.children := rebuild_inj (List.length_map _) rfl
  rw [Expr.rebuild_children] at hinj
  exact hinj.trans map_eq_self_iff

theorem rebuild_map_inj {expr : Expr} {f g : Expr → Expr} :
    expr.rebuild (expr.children.map f) = expr.rebuild (expr.children.map g) ↔
      ∀ child ∈ expr.children, f child = g child := by
  rw [rebuild_inj (List.length_map _) (List.length_map _), List.map_inj_left]

theorem map_triggers_eq_self_iff {triggers : List (List Expr)} {f : Expr → Expr} :
    triggers.map (List.map f) = triggers ↔
      ∀ trigger ∈ triggers, ∀ part ∈ trigger, f part = part := by
  simp only [map_eq_self_iff]

/-- The renaming changes nothing if and only if there is nothing to rename. -/
theorem renameExpr_eq_self_iff (expr : Expr) : ∀ bound,
    renameExpr ghost count expr bound = expr ↔ mentions ghost expr bound = false := by
  induction expr using Expr.children_induction with
  | h expr ih ihTriggers =>
  intro bound
  have hquantifier : ∀ vars, (∀ trigger ∈ expr.triggers, ∀ part ∈ trigger,
      renameExpr ghost count part (bind bound vars) = part) ↔
        (expr.triggers.any fun trigger => trigger.any fun part =>
          mentions ghost part (bind bound vars)) = false := by
    intro vars
    simp only [List.any_eq_false, Bool.not_eq_true]
    refine forall₂_congr fun trigger htrigger => forall₂_congr fun part hpart => ?_
    exact ihTriggers trigger htrigger part hpart _
  have hplain : (∀ child ∈ expr.children, renameExpr ghost count child bound = child) ↔
      (expr.children.any fun child => mentions ghost child bound) = false := by
    simp only [List.any_eq_false, Bool.not_eq_true]
    exact forall₂_congr fun child hchild => ih child hchild bound
  rw [renameExpr_eq, mentions_eq]
  cases expr with
  | localVar var pos =>
    change (if _ then _ else _) = _ ↔ (ghost var && !bound var.name) = false
    split
    · next hghost =>
        rw [hghost]
        simp [fixName_ne]
    · next hghost => simpa using hghost
  | forAll vars triggers body pos | exist vars triggers body pos =>
    have htriggers := hquantifier vars
    rw [← map_triggers_eq_self_iff] at htriggers
    have hbody := ih body (by simp [Expr.children]) (bind bound vars)
    simp only [renameNode, mentionsNode, Expr.children, Expr.triggers, List.map_cons,
      List.map_nil, List.map_map, Expr.forAll.injEq, Expr.exist.injEq, true_and, and_true,
      Bool.or_eq_false_iff, List.any_cons, List.any_nil, Bool.or_false, List.any_map,
      Function.comp_def] at htriggers ⊢
    exact and_congr htriggers hbody
  | letExpr var expr body pos =>
    simp only [renameNode, mentionsNode, Expr.children, List.map_cons, List.map_nil,
      Expr.letExpr.injEq, true_and, and_true, Bool.or_eq_false_iff]
    exact and_congr (ih expr (by simp [Expr.children]) bound)
      (ih body (by simp [Expr.children]) (bind bound [var]))
  | _ =>
    have hmentions := hplain
    rw [← rebuild_map_eq_self_iff] at hmentions
    simpa only [renameNode, mentionsNode, List.map_map, List.any_map, Function.comp_def]
      using hmentions

/-- The fixer renames an expression as it should if and only if it misses nothing. -/
theorem foldExpr_eq_renameExpr_iff (fixer : GhostVarFixer) (expr : Expr) : ∀ bound,
    fixer.foldExpr expr =
      renameExpr fixer.renames fixer.packageStmtCount expr bound ↔
        missed fixer.renames expr bound = false := by
  induction expr using Expr.children_induction with
  | h expr ih _ =>
  intro bound
  have hplain : (∀ child ∈ expr.children, fixer.foldExpr child =
      renameExpr fixer.renames fixer.packageStmtCount child bound) ↔
        (expr.children.any fun child => missed fixer.renames child bound) = false := by
    simp only [List.any_eq_false, Bool.not_eq_true]
    exact forall₂_congr fun child hchild => ih child hchild bound
  have hquantifier : ∀ vars, expr.triggers.map (List.map fun part =>
      renameExpr fixer.renames fixer.packageStmtCount part (bind bound vars)) =
        expr.triggers ↔ (expr.triggers.any fun trigger => trigger.any fun part =>
          mentions fixer.renames part (bind bound vars)) = false := by
    intro vars
    simp only [map_triggers_eq_self_iff, renameExpr_eq_self_iff, List.any_eq_false,
      Bool.not_eq_true]
  rw [foldExpr_eq, renameExpr_eq, missed_eq]
  cases expr with
  | localVar var pos =>
    change (if _ then _ else _) = (if _ then _ else _) ↔
      (fixer.renames var && bound var.name) = false
    cases fixer.renames var <;> cases bound var.name <;> simp [fixName_ne]
  | forAll vars triggers body pos | exist vars triggers body pos =>
    have htriggers := hquantifier vars
    have hbody := ih body (by simp [Expr.children]) (bind bound vars)
    rw [eq_comm] at htriggers
    simp only [renameNode, missedNode, Expr.children, Expr.triggers, List.map_cons,
      List.map_nil, List.map_map, Expr.rebuild, Expr.forAll.injEq, Expr.exist.injEq,
      true_and, and_true, Bool.or_eq_false_iff, List.any_cons, List.any_nil,
      Bool.or_false, Function.comp_def] at htriggers ⊢
    exact and_congr htriggers hbody
  | letExpr var expr body pos =>
    simp only [renameNode, missedNode, Expr.children, List.map_cons, List.map_nil,
      Expr.rebuild, Expr.letExpr.injEq, true_and, and_true, Bool.or_eq_false_iff]
    exact and_congr (ih expr (by simp [Expr.children]) bound)
      (ih body (by simp [Expr.children]) (bind bound [var]))
  | _ =>
    have hmissed := hplain
    rw [← rebuild_map_inj] at hmissed
    simpa only [renameNode, missedNode, List.map_map, List.any_map, Function.comp_def] using hmissed

/-- Without variables to rename nothing changes. -/
theorem foldExpr_none (fixer : GhostVarFixer) (h : fixer.vars = none) (expr : Expr) :
    fixer.foldExpr expr = expr := by
  have hrenames : ∀ var, fixer.renames var = false := by
    intro var
    rw [GhostVarFixer.renames, h]
  induction expr using Expr.children_induction with
  | h expr ih _ =>
  rw [foldExpr_eq]
  cases expr with
  | localVar var pos => simp only [hrenames, Bool.false_eq_true, if_false]
  | _ => exact rebuild_map_eq_self_iff.mpr ih

theorem map_foldExpr_eq_iff (fixer : GhostVarFixer) (exprs : List Expr) :
    exprs.map fixer.foldExpr = (exprs.map fun expr =>
      renameExpr fixer.renames fixer.packageStmtCount expr fun _ => false) ↔
        (exprs.any fun expr => missed fixer.renames expr fun _ => false) = false := by
  simp only [List.map_inj_left, foldExpr_eq_renameExpr_iff, List.any_eq_false, Bool.not_eq_true]

theorem map_target_eq_iff (targets : List LocalVar) :
    (targets = targets.map fun target =>
      if ghost target then fixName count target else target) ↔ targets.any ghost = false := by
  rw [eq_comm, map_eq_self_iff, List.any_eq_false]
  refine forall₂_congr fun target _ => ?_
  cases ghost target <;> simp [fixName_ne]

mutual

/-- The same for the statements of a body without package statements. -/
theorem mapExprs_eq_renameStmt_iff (fixer : GhostVarFixer) (stmt : Stmt) (h : stmt.packages = []) :
    stmt.mapExprs fixer.foldExpr = renameStmt fixer.renames fixer.packageStmtCount stmt ↔
      missedStmt fixer.renames stmt = false := by
  cases stmt with
  | methodCall name args targets =>
    simp only [Stmt.mapExprs, renameStmt, missedStmt, Stmt.methodCall.injEq, true_and,
      Bool.or_eq_false_iff, map_foldExpr_eq_iff, map_target_eq_iff]
  | ite guard thenStmts elseStmts =>
    rw [Stmt.packages, List.append_eq_nil_iff] at h
    simp only [Stmt.mapExprs, renameStmt, missedStmt, Stmt.ite.injEq,
      Bool.or_eq_false_iff, foldExpr_eq_renameExpr_iff,
      mapAllExprs_eq_renameStmts_iff fixer thenStmts h.1,
      mapAllExprs_eq_renameStmts_iff fixer elseStmts h.2, and_assoc]
  | packageMagicWand => cases h
  | fold name args | unfold name args =>
    simp only [Stmt.mapExprs, renameStmt, missedStmt, Stmt.ownExprs, Stmt.fold.injEq,
      Stmt.unfold.injEq, true_and, and_true, map_foldExpr_eq_iff]
  | _ =>
    simp only [Stmt.mapExprs, renameStmt, missedStmt, Stmt.ownExprs, Stmt.inhale.injEq,
      Stmt.exhale.injEq, Stmt.assert.injEq, Stmt.assign.injEq, Stmt.obtain.injEq,
      Stmt.transferPerm.injEq, Stmt.applyMagicWand.injEq, Stmt.downcast.injEq,
      and_true, List.any_cons, List.any_nil, Bool.or_false, Bool.or_eq_false_iff,
      foldExpr_eq_renameExpr_iff]

theorem mapAllExprs_eq_renameStmts_iff (fixer : GhostVarFixer) (stmts : List Stmt)
    (h : Stmt.allPackages stmts = []) :
    Stmt.mapAllExprs fixer.foldExpr stmts =
      renameStmts fixer.renames fixer.packageStmtCount stmts ↔
        missedStmts fixer.renames stmts = false := by
  cases stmts with
  | nil => simp [Stmt.mapAllExprs, renameStmts, missedStmts]
  | cons stmt stmts =>
    rw [Stmt.allPackages, List.append_eq_nil_iff] at h
    simp only [Stmt.mapAllExprs, renameStmts, missedStmts, List.cons.injEq,
      Bool.or_eq_false_iff, mapExprs_eq_renameStmt_iff fixer stmt h.1,
      mapAllExprs_eq_renameStmts_iff fixer stmts h.2]

end

section NoGhost

variable (hghost : ∀ var, ghost var = false)

include hghost

theorem mentions_of_no_ghost (expr : Expr) : ∀ bound, mentions ghost expr bound = false := by
  induction expr using Expr.children_induction with
  | h expr ih ihTriggers =>
  intro bound
  have hparts : ∀ bound, (expr.children.any fun child => mentions ghost child bound) = false := by
    intro bound
    simp only [List.any_eq_false, Bool.not_eq_true]
    exact fun child hchild => ih child hchild bound
  have htriggers : ∀ bound, (expr.triggers.any fun trigger => trigger.any fun part =>
      mentions ghost part bound) = false := by
    intro bound
    simp only [List.any_eq_false, Bool.not_eq_true]
    exact fun trigger htrigger part hpart => ihTriggers trigger htrigger part hpart bound
  rw [mentions_eq]
  cases expr with
  | localVar var pos => simp only [mentionsNode, hghost, Bool.false_and]
  | letExpr var expr body pos =>
    simp only [mentionsNode, Expr.children, List.map_cons, List.map_nil]
    rw [ih expr (by simp [Expr.children]), ih body (by simp [Expr.children])]
    rfl
  | forAll vars | exist vars =>
    have hparts := hparts (bind bound vars)
    have htriggers := htriggers (bind bound vars)
    simpa only [mentionsNode, Expr.children, Expr.triggers, List.any_map,
      Function.comp_def, Bool.or_eq_false_iff] using ⟨htriggers, hparts⟩
  | _ =>
    have hparts := hparts bound
    simpa only [mentionsNode, List.any_map, Function.comp_def] using hparts

theorem missed_of_no_ghost (expr : Expr) : ∀ bound, missed ghost expr bound = false := by
  induction expr using Expr.children_induction with
  | h expr ih _ =>
  intro bound
  have hparts : ∀ bound, (expr.children.any fun child => missed ghost child bound) = false := by
    intro bound
    simp only [List.any_eq_false, Bool.not_eq_true]
    exact fun child hchild => ih child hchild bound
  rw [missed_eq]
  cases expr with
  | localVar var pos => simp only [missedNode, hghost, Bool.false_and]
  | letExpr var expr body pos =>
    simp only [missedNode, Expr.children, List.map_cons, List.map_nil]
    rw [ih expr (by simp [Expr.children]), ih body (by simp [Expr.children])]
    rfl
  | forAll vars | exist vars =>
    have hparts := hparts (bind bound vars)
    simp only [missedNode, mentions_of_no_ghost hghost, List.any_map,
      Function.comp_def, Bool.or_eq_false_iff]
    exact ⟨by simp, hparts⟩
  | _ =>
    have hparts := hparts bound
    simpa only [missedNode, List.any_map, Function.comp_def] using hparts

end NoGhost

mutual

theorem missedStmt_of_no_ghost (hghost : ∀ var, ghost var = false) (stmt : Stmt) :
    missedStmt ghost stmt = false := by
  cases stmt with
  | methodCall name args targets => simp [missedStmt, missed_of_no_ghost hghost, hghost]
  | ite guard thenStmts elseStmts =>
    rw [missedStmt, missed_of_no_ghost hghost, missedStmts_of_no_ghost hghost thenStmts,
      missedStmts_of_no_ghost hghost elseStmts]
    rfl
  | _ => simp [missedStmt, missed_of_no_ghost hghost]

theorem missedStmts_of_no_ghost (hghost : ∀ var, ghost var = false)
    (stmts : List Stmt) : missedStmts ghost stmts = false := by
  cases stmts with
  | nil => rfl
  | cons stmt stmts =>
    rw [missedStmts, missedStmt_of_no_ghost hghost stmt, missedStmts_of_no_ghost hghost stmts]
    rfl

end

end Rename

section Fold

variable {order : IterOrder}

mutual

/-- Outside of package statements the fixer has no variables to rename. -/
theorem foldStmt_vars_none {fixer after : GhostVarFixer} (hnone : fixer.vars = none)
    (stmt : Stmt) {newStmt : Stmt}
    (h : fixer.foldStmt order stmt = some (newStmt, after)) : after.vars = none := by
  cases stmt with
  | packageMagicWand wand body label vars pos =>
    simp only [GhostVarFixer.foldStmt, Option.bind_eq_bind, Option.bind_eq_some_iff,
      Option.some.injEq, Prod.mk.injEq] at h
    obtain ⟨_, -, _, -, -, rfl⟩ := h
    rfl
  | ite guard thenStmts elseStmts =>
    simp only [GhostVarFixer.foldStmt, Option.bind_eq_bind, Option.bind_eq_some_iff,
      Option.some.injEq, Prod.mk.injEq] at h
    obtain ⟨⟨_, between⟩, hthen, ⟨_, _⟩, helse, -, rfl⟩ := h
    exact foldStmts_vars_none (foldStmts_vars_none hnone thenStmts hthen) elseStmts helse
  | _ =>
    cases h
    exact hnone

theorem foldStmts_vars_none {fixer after : GhostVarFixer} (hnone : fixer.vars = none)
    (stmts : List Stmt) {newStmts : List Stmt}
    (h : fixer.foldStmts order stmts = some (newStmts, after)) : after.vars = none := by
  cases stmts with
  | nil =>
    cases h
    exact hnone
  | cons stmt stmts =>
    simp only [GhostVarFixer.foldStmts, Option.bind_eq_bind, Option.bind_eq_some_iff,
      Option.some.injEq, Prod.mk.injEq] at h
    obtain ⟨⟨_, between⟩, hstmt, ⟨_, _⟩, hstmts, -, rfl⟩ := h
    exact foldStmts_vars_none (foldStmt_vars_none hnone stmt hstmt) stmts hstmts

end

mutual

/-- Statements without package statements are folded as by default; after others the
fixer has no variables to rename. -/
theorem foldStmt_eq {fixer after : GhostVarFixer} (stmt : Stmt) {newStmt : Stmt}
    (h : fixer.foldStmt order stmt = some (newStmt, after)) :
    (stmt.packages = [] ∧ newStmt = stmt.mapExprs fixer.foldExpr ∧ after = fixer) ∨
      after.vars = none := by
  cases stmt with
  | packageMagicWand wand body label vars pos =>
    simp only [GhostVarFixer.foldStmt, Option.bind_eq_bind, Option.bind_eq_some_iff,
      Option.some.injEq, Prod.mk.injEq] at h
    obtain ⟨_, -, _, -, -, rfl⟩ := h
    exact .inr rfl
  | ite guard thenStmts elseStmts =>
    simp only [GhostVarFixer.foldStmt, Option.bind_eq_bind, Option.bind_eq_some_iff,
      Option.some.injEq, Prod.mk.injEq] at h
    obtain ⟨⟨_, between⟩, hthen, ⟨_, _⟩, helse, rfl, rfl⟩ := h
    rcases foldStmts_eq thenStmts hthen with ⟨hpackages, rfl, rfl⟩ | hnone
    · rcases foldStmts_eq elseStmts helse with ⟨hpackages', rfl, rfl⟩ | hnone
      · refine .inl ⟨?_, rfl, rfl⟩
        rw [Stmt.packages, hpackages, hpackages', List.append_nil]
      · exact .inr hnone
    · exact .inr (foldStmts_vars_none hnone elseStmts helse)
  | _ =>
    cases h
    exact .inl ⟨rfl, rfl, rfl⟩

theorem foldStmts_eq {fixer after : GhostVarFixer} (stmts : List Stmt)
    {newStmts : List Stmt} (h : fixer.foldStmts order stmts = some (newStmts, after)) :
    (Stmt.allPackages stmts = [] ∧ newStmts = Stmt.mapAllExprs fixer.foldExpr stmts ∧
      after = fixer) ∨ after.vars = none := by
  cases stmts with
  | nil =>
    cases h
    exact .inl ⟨rfl, rfl, rfl⟩
  | cons stmt stmts =>
    simp only [GhostVarFixer.foldStmts, Option.bind_eq_bind, Option.bind_eq_some_iff,
      Option.some.injEq, Prod.mk.injEq] at h
    obtain ⟨⟨_, between⟩, hstmt, ⟨_, _⟩, hstmts, rfl, rfl⟩ := h
    rcases foldStmt_eq stmt hstmt with ⟨hpackages, rfl, rfl⟩ | hnone
    · rcases foldStmts_eq stmts hstmts with ⟨hpackages', rfl, rfl⟩ | hnone
      · refine .inl ⟨?_, rfl, rfl⟩
        rw [Stmt.allPackages, hpackages, hpackages', List.append_nil]
      · exact .inr hnone
    · exact .inr (foldStmts_vars_none hnone stmts hstmts)

end

end Fold

end Prusti.Fixes

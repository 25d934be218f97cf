/-
The removal of unused temporary variables: declarations of variables that occur
only in access predicates are removed, together with these predicates.
-/
import Prusti.Vir.Free
import Prusti.Cfg.Exprs

namespace Prusti.Optimizations

open Prusti.Vir Prusti.Cfg

/-- The variables that the collector finds in an expression.  A variable is used
if it is mentioned somewhere not inside an access predicate. -/
def walkedVars (expr : Expr) : List String :=
  expr.para fun node parts _ =>
    match node with
    | .localVar var _ => [var.name]
    | .predicateAccessPredicate _ _ _ _ | .fieldAccessPredicate _ _ _ => []
    | .forAll vars _ _ _ | .exist vars _ _ _ => vars.map (·.name) ++ parts.flatten
    | .letExpr var _ _ _ => var.name :: parts.flatten
    | .funcApp _ _ formalArgs _ _ => parts.flatten ++ formalArgs.map (·.name)
    | .domainFuncApp func _ _ => parts.flatten ++ func.formalArgs.map (·.name)
    | _ => parts.flatten

mutual

/-- The used variables after a statement.  After a package statement its own
variables are no longer used. -/
def collectUsed (used : List String) : Stmt → List String
  | .methodCall _ args targets =>
    used ++ args.flatMap walkedVars ++ targets.map (·.name)
  | .packageMagicWand wand stmts _ vars _ =>
    (collectAllUsed (used ++ walkedVars wand) stmts).filter fun name =>
      !(vars.map (·.name)).contains name
  | .ite guard thenStmts elseStmts =>
    collectAllUsed (collectAllUsed (used ++ walkedVars guard) thenStmts) elseStmts
  | stmt => used ++ stmt.ownExprs.flatMap walkedVars

def collectAllUsed (used : List String) : List Stmt → List String
  | [] => used
  | stmt :: stmts => collectAllUsed (collectUsed used stmt) stmts

end

/-- The used variables of a method. -/
def usedVars (method : CfgMethod) : List String :=
  collectAllUsed [] method.stmts ++ method.guards.flatMap walkedVars

/-- An access predicate of an unused variable is replaced by `true`.  The arguments
of the other ones are left alone. -/
def removeNode (unused : List LocalVar) (node : Expr) (parts : List Expr) : Expr :=
  match node with
  | .predicateAccessPredicate _ (.localVar var _) _ _ =>
    if unused.contains var then Expr.ofBool true else node
  | .predicateAccessPredicate _ _ _ _ => node
  | .fieldAccessPredicate base _ _ =>
    match base.getBase with
    | some var => if unused.contains var then Expr.ofBool true else node
    | none => node
  | _ => node.rebuild parts

def removeExpr (unused : List LocalVar) (expr : Expr) : Expr :=
  expr.para fun node parts _ => removeNode unused node parts

/-- The field access predicates that are met are about places; otherwise
`get_base` panics. -/
def hasBases (expr : Expr) : Bool :=
  expr.para fun node parts _ =>
    match node with
    | .predicateAccessPredicate _ _ _ _ => true
    | .fieldAccessPredicate base _ _ => base.getBase.isSome
    | _ => parts.all id

/-- Remove unused temporary variables and related access predicates; `none` stands
for a panic. -/
def removeUnusedVars (method : CfgMethod) : Option CfgMethod :=
  let used := usedVars method
  let unused := method.localVars.filter fun var => !used.contains var.name
  if method.stmtExprs.all hasBases then
    some (CfgMethod.mapStmts (Stmt.mapExprs (removeExpr unused))
      { method with
        localVars := method.localVars.filter fun var => used.contains var.name })
  else none

/-- The variables that occur free in the statements and guards of a method. -/
def freeNames (method : CfgMethod) : List String :=
  Stmt.allFreeBy Expr.free method.stmts ++ method.guards.flatMap Expr.free

/-- Every local variable that occurs is declared, and the package statements
declare what they declared before. -/
structure DeclaresVars (method result : CfgMethod) : Prop where
  locals : ∀ var ∈ method.localVars, var.name ∈ freeNames result → var ∈ result.localVars
  ghosts : Stmt.allPackageVars result.stmts = Stmt.allPackageVars method.stmts

section LastEvent

variable (name : String)

/-- Is the variable met in one of the expressions? -/
def metIn (exprs : List Expr) : Option Bool :=
  if exprs.any fun expr => (walkedVars expr).contains name then some true else none

mutual

/-- What a statement does last to a variable: it is met, or a package statement
that declares it ends. -/
def lastEvent : Stmt → Option Bool
  | .methodCall _ args targets =>
    if (targets.map (·.name)).contains name then some true else metIn name args
  | .packageMagicWand wand stmts _ vars _ =>
    if (vars.map (·.name)).contains name then some false
    else (lastEventOfAll stmts).or (metIn name [wand])
  | .ite guard thenStmts elseStmts =>
    ((lastEventOfAll elseStmts).or (lastEventOfAll thenStmts)).or (metIn name [guard])
  | stmt => metIn name stmt.ownExprs

def lastEventOfAll : List Stmt → Option Bool
  | [] => none
  | stmt :: stmts => (lastEventOfAll stmts).or (lastEvent stmt)

end

/-- A variable is used when it is met in a guard, or when it is met in a statement
and no package statement that declares it ends later. -/
def isUsed (method : CfgMethod) : Bool :=
  (method.guards.any fun expr => (walkedVars expr).contains name) ||
    lastEventOfAll name method.stmts == some true

variable {name}

theorem mem_append_metIn (name : String) (used : List String) (exprs : List Expr) :
    name ∈ used ++ exprs.flatMap walkedVars ↔
      metIn name exprs = some true ∨ metIn name exprs = none ∧ name ∈ used := by
  unfold metIn
  split
  · next h =>
      obtain ⟨expr, hexpr, hname⟩ := List.any_eq_true.mp h
      rw [List.contains_iff_mem] at hname
      simp only [List.mem_append, List.mem_flatMap, true_or, iff_true]
      exact .inr ⟨expr, hexpr, hname⟩
  · next h =>
      simp only [reduceCtorEq, false_or, true_and, List.mem_append, List.mem_flatMap,
        or_iff_left_iff_imp]
      rintro ⟨expr, hexpr, hname⟩
      refine absurd (List.any_eq_true.mpr ⟨expr, hexpr, ?_⟩) h
      rw [List.contains_iff_mem]
      exact hname

/-- One event after another. -/
theorem event_or {first second : Option Bool} {p : Prop} :
    (second = some true ∨ second = none ∧
      (first = some true ∨ first = none ∧ p)) ↔
      (second.or first = some true ∨ second.or first = none ∧ p) := by
  cases second with
  | none => simp
  | some b => cases b <;> simp

mutual

/-- The used variables after a statement, by what it does last to them. -/
theorem mem_collectUsed (used : List String) (stmt : Stmt) :
    name ∈ collectUsed used stmt ↔ lastEvent name stmt = some true ∨
      lastEvent name stmt = none ∧ name ∈ used := by
  cases stmt with
  | methodCall _ args targets =>
    rw [collectUsed, lastEvent, List.mem_append, mem_append_metIn]
    by_cases htarget : name ∈ targets.map (·.name)
    · rw [if_pos (by rw [List.contains_iff_mem]; exact htarget)]
      simp [htarget]
    · rw [if_neg (by rw [List.contains_iff_mem]; exact htarget)]
      simp [htarget]
  | packageMagicWand wand stmts _ vars _ =>
    rw [collectUsed, lastEvent, List.mem_filter, mem_collectAllUsed _ stmts]
    by_cases hvar : name ∈ vars.map (·.name)
    · rw [if_pos (by rw [List.contains_iff_mem]; exact hvar)]
      simp [hvar]
    · rw [if_neg (by rw [List.contains_iff_mem]; exact hvar), ← event_or]
      have hwand := mem_append_metIn name used [wand]
      rw [List.flatMap_singleton] at hwand
      rw [hwand]
      simp [hvar]
  | ite guard thenStmts elseStmts =>
    have hguard := mem_append_metIn name used [guard]
    rw [List.flatMap_singleton] at hguard
    rw [collectUsed, lastEvent, mem_collectAllUsed _ elseStmts,
      mem_collectAllUsed _ thenStmts, hguard, event_or, event_or, Option.or_assoc]
  | _ =>
    rw [collectUsed, lastEvent]
    · exact mem_append_metIn name used _
    all_goals simp

theorem mem_collectAllUsed (used : List String) (stmts : List Stmt) :
    name ∈ collectAllUsed used stmts ↔ lastEventOfAll name stmts = some true ∨
      lastEventOfAll name stmts = none ∧ name ∈ used := by
  cases stmts with
  | nil => simp [collectAllUsed, lastEventOfAll]
  | cons stmt stmts =>
    rw [collectAllUsed, lastEventOfAll, mem_collectAllUsed _ stmts,
      mem_collectUsed used stmt, event_or]

end

/-- The collector finds the used variables. -/
theorem contains_usedVars (method : CfgMethod) (name : String) :
    (usedVars method).contains name = isUsed name method := by
  rw [Bool.eq_iff_iff, List.contains_iff_mem, usedVars, List.mem_append,
    mem_collectAllUsed, isUsed, Bool.or_eq_true]
  simp only [List.not_mem_nil, and_false, or_false, List.mem_flatMap, beq_iff_eq,
    List.any_eq_true, List.contains_iff_mem]
  exact or_comm

end LastEvent

section Remaining

variable (unused : List LocalVar)

def remainingNode (node : Expr) (parts : List (List String)) : List String :=
  match node with
  | .predicateAccessPredicate _ (.localVar var _) _ _ =>
    if unused.contains var then [] else [var.name]
  | .predicateAccessPredicate _ arg _ _ => arg.free
  | .fieldAccessPredicate base _ _ =>
    match base.getBase with
    | some var => if unused.contains var then [] else base.free
    | none => base.free
  | _ => node.freeNode parts (node.triggers.map (List.map Expr.free))

/-- The variables that occur in an expression other than in the access predicates
of unused variables. -/
def remaining (expr : Expr) : List String :=
  expr.para fun node parts _ => remainingNode unused node parts

theorem free_predicateAccess (name : String) (arg : Expr) (perm : PermAmount) (pos : Position) :
    (Expr.predicateAccessPredicate name arg perm pos).free = arg.free := by
  rw [Expr.free_eq]
  simp [Expr.freeNode, Expr.children, Expr.triggers, Expr.boundNames]

theorem free_fieldAccess (base : Expr) (perm : PermAmount) (pos : Position) :
    (Expr.fieldAccessPredicate base perm pos).free = base.free := by
  rw [Expr.free_eq]
  simp [Expr.freeNode, Expr.children, Expr.triggers, Expr.boundNames]

/-- What remains is what occurs after the removal. -/
theorem free_removeExpr (expr : Expr) : (removeExpr unused expr).free = remaining unused expr := by
  induction expr using Expr.children_induction with
  | h expr ih _ =>
  have hremove : removeExpr unused expr =
      removeNode unused expr (expr.children.map (removeExpr unused)) :=
    Expr.para_eq _ expr
  have hremaining : remaining unused expr =
      remainingNode unused expr (expr.children.map (remaining unused)) :=
    Expr.para_eq _ expr
  rw [hremove, hremaining]
  unfold removeNode remainingNode
  split
  · split
    · rfl
    · rw [free_predicateAccess]
      rfl
  · rw [free_predicateAccess]
  · split
    · split
      · rfl
      · rw [free_fieldAccess]
    · rw [free_fieldAccess]
  · rw [Expr.free_rebuild, List.map_congr_left ih]

end Remaining

/-- The unused local variables of a method. -/
def unusedVars (method : CfgMethod) : List LocalVar :=
  method.localVars.filter fun var => !isUsed var.name method

/-- The unused variables occur only in access predicates of unused variables. -/
def UnusedOnlyInAccess (method : CfgMethod) : Prop :=
  ∀ var ∈ unusedVars method,
    var.name ∉ Stmt.allFreeBy (remaining (unusedVars method)) method.stmts ∧
      ∀ guard ∈ method.guards, var.name ∉ guard.free

theorem removeUnusedVars_eq (method : CfgMethod) :
    removeUnusedVars method =
      if method.stmtExprs.all hasBases then
        some (CfgMethod.mapStmts (Stmt.mapExprs (removeExpr (unusedVars method)))
          { method with
            localVars := method.localVars.filter fun var => isUsed var.name method })
      else none := by
  unfold removeUnusedVars unusedVars
  simp only [contains_usedVars]

/-- The pass keeps the declarations that are needed exactly when the variables that
it takes for unused occur only in access predicates that it removes. -/
theorem removeUnusedVars_declaresVars_iff (method result : CfgMethod)
    (hresult : removeUnusedVars method = some result) :
    DeclaresVars method result ↔ UnusedOnlyInAccess method := by
  rw [removeUnusedVars_eq] at hresult
  split at hresult
  · cases hresult
    have hstmts : ∀ localVars, (CfgMethod.mapStmts (Stmt.mapExprs (removeExpr (unusedVars method)))
        { method with localVars := localVars }).stmts =
          Stmt.mapAllExprs (removeExpr (unusedVars method)) method.stmts := by
      intro localVars
      rw [CfgMethod.stmts_mapStmts, Stmt.mapAllExprs_eq_map]
      rfl
    have hfree : ∀ name, name ∈ freeNames (CfgMethod.mapStmts
        (Stmt.mapExprs (removeExpr (unusedVars method)))
        { method with
          localVars := method.localVars.filter fun var => isUsed var.name method }) ↔
        name ∈ Stmt.allFreeBy (remaining (unusedVars method)) method.stmts ∨
          ∃ guard ∈ method.guards, name ∈ guard.free := by
      intro name
      have hremaining : (fun expr => (removeExpr (unusedVars method) expr).free) =
          remaining (unusedVars method) := funext (free_removeExpr _)
      rw [freeNames, hstmts, Stmt.allFreeBy_mapAllExprs, hremaining, List.mem_append,
        List.mem_flatMap, CfgMethod.guards_mapStmts]
      rfl
    constructor
    · rintro ⟨hlocals, -⟩ var hvar
      obtain ⟨hmem, hunused⟩ := List.mem_filter.mp hvar
      have hgone : var.name ∉ freeNames _ := fun hname => by
        have hkept := (List.mem_filter.mp (hlocals var hmem hname)).2
        rw [hkept] at hunused
        cases hunused
      rw [hfree, not_or] at hgone
      exact ⟨hgone.1, fun guard hguard hname => hgone.2 ⟨guard, hguard, hname⟩⟩
    · intro honly
      refine ⟨fun var hmem hname => ?_, ?_⟩
      · apply List.mem_filter.mpr
        refine ⟨hmem, ?_⟩
        by_contra hunused
        have hvar : var ∈ unusedVars method := List.mem_filter.mpr ⟨hmem, by simpa using hunused⟩
        obtain ⟨hstmt, hguards⟩ := honly var hvar
        rcases (hfree var.name).mp hname with hname | ⟨guard, hguard, hname⟩
        · exact hstmt hname
        · exact hguards guard hguard hname
      · rw [hstmts, Stmt.allPackageVars_mapAllExprs]
  · cases hresult

namespace Witness

def tempVar : LocalVar := ⟨"x", .typedRef "T"⟩

/-- `inhale acc(P(x.f))`, where nothing else mentions `x` -/
def inhaleFieldPredicate : CfgMethod :=
  { CfgMethod.new 0 "m" 0 [] [tempVar] [] with
    basicBlocks := [⟨[.inhale (.predicateAccessPredicate "P"
      ((Expr.ofLocal tempVar).mkField ⟨"f", .typedRef "P"⟩) .write
      Position.default)], .ret⟩] }

/-- The access predicate stays, the declaration does not. -/
theorem removeUnusedVars_undeclared_field :
    removeUnusedVars inhaleFieldPredicate = some { inhaleFieldPredicate with localVars := [] } ∧
      ¬ DeclaresVars inhaleFieldPredicate
        { inhaleFieldPredicate with localVars := [] } := by
  refine ⟨rfl, fun h => ?_⟩
  have hmem := h.locals tempVar List.mem_cons_self (by decide)
  cases hmem

theorem removeUnusedVars_declaresVars_iff_field :
    removeUnusedVars inhaleFieldPredicate = some { inhaleFieldPredicate with localVars := [] } ∧
      (DeclaresVars inhaleFieldPredicate
          { inhaleFieldPredicate with localVars := [] } ↔
        UnusedOnlyInAccess inhaleFieldPredicate) :=
  ⟨rfl, removeUnusedVars_declaresVars_iff _ _ rfl⟩

end Witness

end Prusti.Optimizations

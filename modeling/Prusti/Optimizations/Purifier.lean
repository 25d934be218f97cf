/-
The purification of heap allocated local variables into pure local variables:
`_1.val_int` becomes `_1`, where `_1` is of type `Int`.  `none` stands for a
failed assertion, a failed `expect` or an index out of bounds.
-/
import Prusti.Encoder.PrimitiveBounds
import Prusti.Cfg.Exprs

namespace Prusti.Optimizations

open Prusti.Vir Prusti.Cfg Prusti.Lib Prusti.Encoder

def isPurifiablePredicate (name : String) : Bool := name == "usize" || name == "isize"

def isPurifiableMethod (name : String) : Bool := name == "builtin$havoc_ref"

/-- Collects all variables that cannot be purified.  Whether the context is pure is
an argument of the walks, because every walk restores it. -/
structure VarCollector where
  allVars : HashSet LocalVar
  /-- Variables that cannot be purified. -/
  impureVars : HashSet LocalVar
  /-- Variable replacement map. -/
  replacements : HashMap LocalVar LocalVar

namespace VarCollector

def checkLocalVar (isPureContext : Bool) (state : VarCollector) (var : LocalVar) : VarCollector :=
  { state with
    allVars := HashSet.insert state.allVars var
    impureVars :=
      if isPureContext then state.impureVars else HashSet.insert state.impureVars var }

def checkLocalVars (isPureContext : Bool) (state : VarCollector)
    (vars : List LocalVar) : VarCollector :=
  vars.foldl (checkLocalVar isPureContext) state

/-- Bound variables are forgotten. -/
def forget (state : VarCollector) (vars : List LocalVar) : VarCollector :=
  { state with allVars := vars.foldl HashMap.erase state.allVars }

def insertReplacement (state : VarCollector) (var : LocalVar) (typ : Typ) : VarCollector :=
  { state with
    replacements := state.replacements.insert var { var with typ := typ } }

def isPurified (state : VarCollector) (var : LocalVar) : Bool :=
  state.allVars.contains var && !state.impureVars.contains var

end VarCollector

/-- A walk, depending on whether the context is pure. -/
abbrev Walk := Bool → VarCollector → Option VarCollector

def walkParts (parts : List Walk) : Walk := fun isPureContext state =>
  parts.foldlM (fun state part => part isPureContext state) state

/-- Is the context of the arguments pure?  The first argument has to exist when the
predicate is purifiable. -/
def argsContext (name : String) (args : List Expr) (isPureContext : Bool) : Option Bool :=
  if isPurifiablePredicate name then
    match args with
    | [] => none
    | .localVar _ _ :: _ => some true
    | _ => some isPureContext
  else some isPureContext

/-- The walk of a node, by the walks of its sub-expressions. -/
def walkNode (node : Expr) (parts : List Walk) : Walk := fun isPureContext state =>
  match node with
  | .localVar var _ => some (state.checkLocalVar isPureContext var)
  | .predicateAccessPredicate name (.localVar var _) _ _ =>
    if isPurifiablePredicate name then
      walkParts parts true (state.insertReplacement var .int)
    else walkParts parts isPureContext state
  | .unfolding name args _ _ _ _ => do
    let context ← argsContext name args isPureContext
    walkParts parts context state
  | .field (.localVar var _) fld _ =>
    if fld.name == "val_int" then
      walkParts parts true (state.insertReplacement var fld.typ)
    else walkParts parts isPureContext state
  | .field _ fld _ => walkParts parts (isPureContext || fld.name == "val_int") state
  | .letExpr var _ _ _ => do
    let state ← walkParts parts isPureContext state
    some (state.forget [var])
  | .forAll vars _ _ _ => do
    let state ← walkParts parts isPureContext state
    some (state.forget vars)
  | .exist vars _ _ _ =>
    walkParts parts isPureContext (state.checkLocalVars isPureContext vars)
  | .funcApp _ _ formalArgs _ _ => do
    let state ← walkParts parts isPureContext state
    some (state.checkLocalVars isPureContext formalArgs)
  | .domainFuncApp func _ _ => do
    let state ← walkParts parts isPureContext state
    some (state.checkLocalVars isPureContext func.formalArgs)
  | _ => walkParts parts isPureContext state

def walkExpr (expr : Expr) : Walk := expr.para fun node parts _ => walkNode node parts

def walkExprs (exprs : List Expr) : Walk := walkParts (exprs.map walkExpr)

mutual

def walkStmt (state : VarCollector) : Stmt → Option VarCollector
  | .methodCall name args targets =>
    if args.isEmpty then
      some (state.checkLocalVars (isPurifiableMethod name) targets)
    else none
  | .fold name args _ _ _ | .unfold name args _ _ => do
    let context ← argsContext name args false
    walkExprs args context state
  | .packageMagicWand wand stmts _ vars _ => do
    let state ← walkExpr wand false state
    walkStmts (state.checkLocalVars false vars) stmts
  | .ite guard thenStmts elseStmts => do
    let state ← walkExpr guard false state
    let state ← walkStmts state thenStmts
    walkStmts state elseStmts
  | stmt => walkExprs stmt.ownExprs false state

def walkStmts (state : VarCollector) : List Stmt → Option VarCollector
  | [] => some state
  | stmt :: stmts => do
    let state ← walkStmt state stmt
    walkStmts state stmts

end

/-- The return value cannot be purified. -/
def VarCollector.initial : VarCollector where
  allVars := HashMap.empty
  impureVars := HashSet.insert HashMap.empty ⟨"_0", .typedRef ""⟩
  replacements := HashMap.empty

def collectVars (method : CfgMethod) : Option VarCollector := do
  let state ← walkStmts .initial method.stmts
  walkExprs method.guards false state

section Purifier

variable (settings : BoundSettings) (state : VarCollector)

def isPure : Expr → Bool
  | .localVar var _ => state.isPurified var
  | _ => false

def getReplacement : Expr → Option Expr
  | .localVar var pos => (state.replacements.get? var).map (.localVar · pos)
  | _ => none

/-- The largest value of `usize`. -/
def usizeMax : Expr := bigIntConst (2 ^ settings.pointerWidth - 1)

def replacementBounds (replacement : Expr) : Expr :=
  if settings.checkOverflows then
    Expr.mkAnd (Expr.mkBinOp .geCmp replacement (Expr.ofInt 0))
      (Expr.mkBinOp .geCmp (usizeMax settings) replacement)
  else if settings.encodeUnsignedNumConstraint then
    Expr.mkBinOp .geCmp replacement (Expr.ofInt 0)
  else Expr.ofBool true

def getReplacementBounds (varExpr : Expr) : Option Expr :=
  (getReplacement state varExpr).map (replacementBounds settings)

/-- The default fold of a node. -/
def defaultFold (node : Expr) (parts : List (Option Expr)) : Option Expr :=
  (parts.mapM id).map node.rebuild

def purifyNode (node : Expr) (parts : List (Option Expr)) : Option Expr :=
  match node with
  | .localVar var _ => if state.isPurified var then none else some node
  | .predicateAccessPredicate name arg _ _ =>
    if isPurifiablePredicate name && isPure state arg then
      getReplacementBounds settings state arg
    else defaultFold node parts
  | .fieldAccessPredicate (.field (.localVar var _) _ _) _ _ =>
    if state.isPurified var then some (Expr.ofBool true)
    else defaultFold node parts
  | .unfolding name [arg] _ perm index pos =>
    if isPurifiablePredicate name && isPure state arg then parts.getLastD none
    else (parts.getLastD none).map fun body => .unfolding name [arg] body perm index pos
  | .unfolding _ _ _ _ _ _ => none
  | .field receiver _ _ =>
    if isPure state receiver then getReplacement state receiver
    else defaultFold node parts
  | _ => defaultFold node parts

def purifyExpr (expr : Expr) : Option Expr :=
  expr.para fun node parts _ => purifyNode settings state node parts

/-- The method that havocs a variable of the given type. -/
def havocMethod : Typ → Option String
  | .int => some "builtin$havoc_int"
  | .bool => some "builtin$havoc_bool"
  | .typedRef _ => some "builtin$havoc_ref"
  | .domain _ | .snapshot _ | .seq _ => none

mutual

def purifyStmt : Stmt → Option Stmt
  | .unfold name [arg] perm index =>
    if isPurifiablePredicate name && isPure state arg then
      (getReplacementBounds settings state arg).map .inhale
    else (purifyExpr settings state arg).map fun arg => .unfold name [arg] perm index
  | .unfold _ _ _ _ => none
  | .fold name [arg] perm index pos =>
    if isPurifiablePredicate name && isPure state arg then
      (getReplacementBounds settings state arg).map fun bounds => .assert bounds pos
    else (purifyExpr settings state arg).map fun arg => .fold name [arg] perm index pos
  | .fold _ _ _ _ _ => none
  | .methodCall name args [target] =>
    if state.isPurified target then do
      let replacement ← state.replacements.get? target
      let name ← havocMethod replacement.typ
      let args ← args.mapM (purifyExpr settings state)
      some (.methodCall name args [replacement])
    else
      (args.mapM (purifyExpr settings state)).map fun args =>
        .methodCall name args [target]
  | .methodCall _ _ _ => none
  | .inhale expr => (purifyExpr settings state expr).map .inhale
  | .exhale expr pos => (purifyExpr settings state expr).map fun expr => .exhale expr pos
  | .assert expr pos => (purifyExpr settings state expr).map fun expr => .assert expr pos
  | .assign lhs rhs kind => do
    let lhs ← purifyExpr settings state lhs
    let rhs ← purifyExpr settings state rhs
    some (.assign lhs rhs kind)
  | .obtain expr pos => (purifyExpr settings state expr).map fun expr => .obtain expr pos
  | .transferPerm lhs rhs unchecked => do
    let lhs ← purifyExpr settings state lhs
    let rhs ← purifyExpr settings state rhs
    some (.transferPerm lhs rhs unchecked)
  | .packageMagicWand wand stmts label vars pos => do
    let wand ← purifyExpr settings state wand
    let stmts ← purifyStmts stmts
    some (.packageMagicWand wand stmts label vars pos)
  | .applyMagicWand wand pos =>
    (purifyExpr settings state wand).map fun wand => .applyMagicWand wand pos
  | .ite guard thenStmts elseStmts => do
    let guard ← purifyExpr settings state guard
    let thenStmts ← purifyStmts thenStmts
    let elseStmts ← purifyStmts elseStmts
    some (.ite guard thenStmts elseStmts)
  | .downcast enumPlace fld =>
    (purifyExpr settings state enumPlace).map fun enumPlace => .downcast enumPlace fld
  | .comment text => some (.comment text)
  | .label name => some (.label name)
  | .beginFrame => some .beginFrame
  | .endFrame => some .endFrame
  | .expireBorrows nodeStmts => some (.expireBorrows nodeStmts)

def purifyStmts : List Stmt → Option (List Stmt)
  | [] => some []
  | stmt :: stmts => do
    let stmt ← purifyStmt stmt
    let stmts ← purifyStmts stmts
    some (stmt :: stmts)

end

/-- A purified variable is declared with its new type. -/
def fixVar (var : LocalVar) : Option LocalVar :=
  if state.isPurified var then state.replacements.get? var else some var

def purifyBlock (block : CfgBlock) : Option CfgBlock :=
  (purifyStmts settings state block.stmts).map fun stmts => { block with stmts := stmts }

end Purifier

/-- Purify variables.  The successors are not folded. -/
def purifyVars (settings : BoundSettings) (method : CfgMethod) : Option CfgMethod := do
  let state ← collectVars method
  let basicBlocks ← method.basicBlocks.mapM (purifyBlock settings state)
  let localVars ← method.localVars.mapM (fixVar state)
  some { method with basicBlocks := basicBlocks, localVars := localVars }

end Prusti.Optimizations

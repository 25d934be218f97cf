/-
The purification of the local variables of a method that hold integers and booleans:
`_1.val_int` becomes `_1`, and `_1` is declared as an `Int`.  `none` stands for a
panic.
-/
import Prusti.Vir.Predicate
import Prusti.Vir.Typing
import Prusti.Cfg.Exprs

namespace Prusti.Vir

def Typ.display : Typ → String
  | .int => "Int"
  | .bool => "Bool"
  | .typedRef name => "Ref(" ++ name ++ ")"
  | .domain name => "Domain(" ++ name ++ ")"
  | .snapshot name => "Snapshot(" ++ name ++ ")"
  | .seq elem => "Seq[" ++ elem.display ++ "]"

def LocalVar.debug (var : LocalVar) : String := var.name ++ ": " ++ var.typ.display

namespace Expr

/-- Remove access predicates. -/
def purify (expr : Expr) : Expr :=
  expr.para fun node parts _ =>
    match node with
    | .predicateAccessPredicate _ _ _ _ | .fieldAccessPredicate _ _ _ => ofBool true
    | _ => node.rebuild parts

def isHeapDependent (expr : Expr) : Bool :=
  expr.para fun node parts _ =>
    match node with
    | .predicateAccessPredicate _ _ _ _ | .fieldAccessPredicate _ _ _ | .field _ _ _
    | .variant _ _ _ | .magicWand _ _ _ _ | .unfolding _ _ _ _ _ _
    | .funcApp _ _ _ _ _ => true
    | _ => parts.any id

end Expr

end Prusti.Vir

namespace Prusti.Optimizations.Purification

open Prusti.Vir Prusti.Cfg

def supportedTypes : List String := ["bool", "i32", "usize", "u32"]

def translateType (typ : Typ) : Option Typ :=
  match typ with
  | .typedRef name =>
    if ["i32", "usize", "u32"].contains name then some .int
    else if name == "bool" then some .bool
    else none
  -- The type is already translated.
  | typ => some typ

def isSupported : Typ → Bool
  | .typedRef name => supportedTypes.contains name
  | _ => false

/-- The names of the local variables that can be purified as far as their type goes. -/
def candidates (method : CfgMethod) : List String :=
  (method.localVars.filter fun var => isSupported var.typ).map (·.name)

section Collector

/-- A variable that is mentioned without a field access is not purified. -/
def walkExpr (expr : Expr) : List String → List String :=
  expr.para fun node parts _ vars =>
    match node with
    | .localVar var _ => vars.filter fun name => name != var.name
    | .field (.localVar _ _) _ _ => vars
    | _ => parts.foldl (fun vars part => part vars) vars

mutual

/-- The walker looks into the expressions of assignments only, and there at the source:
what it does with the expressions of the other statements is nothing. -/
def walkStmt : Stmt → List String → List String
  | .assign _ rhs _, vars => walkExpr rhs vars
  | .packageMagicWand _ stmts _ _ _, vars => walkStmts stmts vars
  | .ite _ thenStmts elseStmts, vars => walkStmts elseStmts (walkStmts thenStmts vars)
  | _, vars => vars

def walkStmts : List Stmt → List String → List String
  | [], vars => vars
  | stmt :: stmts, vars => walkStmts stmts (walkStmt stmt vars)

end

def walkMethod (method : CfgMethod) (vars : List String) : List String :=
  method.guards.foldl (fun vars guard => walkExpr guard vars) (walkStmts method.stmts vars)

/-- The names of the variables that are purified. -/
def collect (method : CfgMethod) : List String := walkMethod method (candidates method)

end Collector

section Purifier

-- The names of the variables to purify, and the predicates.
variable (targets : List String) (predicates : List Predicate)

/-- The body of the first structure predicate of the name. -/
def findPredicate (predicateName : String) : Option Expr :=
  predicates.findSome? (fun predicate =>
    match predicate with
    | .struct predicate =>
      if predicate.name == predicateName then some predicate.body else none
    | _ => none) |>.join

def isTarget : Expr → Bool
  | .localVar var _ => targets.contains var.name
  | _ => false

/-- The purified variable that is the only argument of a fold, an unfold or an unfolding. -/
def foldedVar (args : List Expr) : Option LocalVar :=
  match args with
  | [.localVar var _] => if targets.contains var.name then some var else none
  | _ => none

/-- Is the expression a field of a purified variable? -/
def isTargetField : Expr → Bool
  | .field base _ _ => isTarget targets base
  | _ => false

/-- The variable with its new type. -/
def foldVar (var : LocalVar) (pos : Position) : Option Expr :=
  (translateType var.typ).map fun typ => .localVar ⟨var.name, typ⟩ pos

def foldLocal (expr : Expr) : Option Expr :=
  match expr with
  | .localVar var pos => if targets.contains var.name then foldVar var pos else some expr
  | _ => some expr

/-- A field of a purified variable is the variable. -/
def foldField (receiver : Expr) (fld : Field) (pos : Position) : Option Expr :=
  match receiver with
  | .localVar var varPos =>
    if targets.contains var.name then foldVar var varPos
    else some (.field receiver fld pos)
  | _ => some (.field receiver fld pos)

def foldNode (node : Expr) (parts : List (Option Expr)) : Option Expr :=
  match node with
  | .localVar _ _ => foldLocal targets node
  | .field _ fld pos => (parts.headD none).bind fun receiver =>
    foldField targets receiver fld pos
  | .predicateAccessPredicate _ arg _ _ =>
    if isTarget targets arg then some (Expr.ofBool true)
    else (parts.mapM id).map node.rebuild
  | .fieldAccessPredicate receiver _ _ =>
    if isTargetField targets receiver then some (Expr.ofBool true) else some node
  | .unfolding _ args _ _ _ _ =>
    if (foldedVar targets args).isSome then parts.getLastD none
    else (parts.mapM id).map node.rebuild
  | .labelledOld label _ pos => (parts.headD none).map fun body =>
    if body.isHeapDependent then .labelledOld label body pos else body
  | _ => (parts.mapM id).map node.rebuild

def foldExpr (expr : Expr) : Option Expr :=
  expr.para fun node parts _ => foldNode targets node parts

/-- The field that holds the value of a supported type. -/
def valueField : Typ → Option Field
  | .typedRef name =>
    if name == "bool" then some ⟨"val_bool", .bool⟩
    else if ["i32", "usize", "u32"].contains name then some ⟨"val_int", .int⟩
    else none
  | _ => none

/-- The source of an assignment to a purified variable is its value. -/
def assignedSource (target source : Expr) : Option Expr :=
  if isTarget targets target then
    (source.getType.bind valueField).map fun fld => source.mkField fld
  else some source

/-- What a predicate says about the value of its argument; the inner `none` stands for a
predicate without a body. -/
def predicateFacts (predicateName : String) (arg : LocalVar) : Option (Option Expr) :=
  match findPredicate predicates predicateName with
  | some body =>
    (body.replacePlace (Expr.ofLocal ⟨"self", .typedRef predicateName⟩)
      (Expr.ofLocal arg)).map fun inner => some inner.purify
  | none => some none

/-- A fold or an unfold of a purified variable asserts or assumes what the predicate says
about its value. -/
def foldFacts (predicateName : String) (arg : LocalVar) (stmt : Expr → Stmt)
    (comment : String) : Option Stmt := do
  match ← predicateFacts predicates predicateName arg with
  | some facts => (foldExpr targets facts).map stmt
  | none => some (.comment comment)

def isHavoc (name : String) : Bool := "builtin$havoc".toList.isPrefixOf name.toList

mutual

def foldStmt : Stmt → Option Stmt
  | .comment text => some (.comment text)
  | .label name => some (.label name)
  | .inhale expr => (foldExpr targets expr).map .inhale
  | .exhale expr pos => (foldExpr targets expr).map fun expr => .exhale expr pos
  | .assert expr pos => (foldExpr targets expr).map fun expr => .assert expr pos
  | .methodCall name args vars =>
    if isHavoc name && vars.length == 1 && vars.all fun var => targets.contains var.name then
      some (.comment ("replaced havoc call for [" ++ ", ".intercalate (vars.map (·.debug)) ++ "]"))
    else (args.mapM (foldExpr targets)).map fun args => .methodCall name args vars
  | .assign target source kind => do
    let source ← assignedSource targets target source
    let target ← foldExpr targets target
    let source ← foldExpr targets source
    some (.assign target source kind)
  | .fold name args perm index pos =>
    match foldedVar targets args with
    | some var => foldFacts targets predicates name var (.assert · pos) "replaced fold"
    | none => (args.mapM (foldExpr targets)).map fun args => .fold name args perm index pos
  | .unfold name args perm index =>
    match foldedVar targets args with
    | some var => foldFacts targets predicates name var .inhale "replaced unfold"
    | none => (args.mapM (foldExpr targets)).map fun args => .unfold name args perm index
  | .obtain expr pos => (foldExpr targets expr).map fun expr => .obtain expr pos
  | .beginFrame => some .beginFrame
  | .endFrame => some .endFrame
  | .transferPerm lhs rhs unchecked => do
    let lhs ← foldExpr targets lhs
    let rhs ← foldExpr targets rhs
    some (.transferPerm lhs rhs unchecked)
  | .packageMagicWand wand stmts label vars pos => do
    let wand ← foldExpr targets wand
    let stmts ← foldStmts stmts
    some (.packageMagicWand wand stmts label vars pos)
  | .applyMagicWand wand pos => (foldExpr targets wand).map fun wand => .applyMagicWand wand pos
  | .expireBorrows nodeStmts => some (.expireBorrows nodeStmts)
  | .ite guard thenStmts elseStmts => do
    let guard ← foldExpr targets guard
    let thenStmts ← foldStmts thenStmts
    let elseStmts ← foldStmts elseStmts
    some (.ite guard thenStmts elseStmts)
  | .downcast enumPlace fld =>
    (foldExpr targets enumPlace).map fun enumPlace => .downcast enumPlace fld

def foldStmts : List Stmt → Option (List Stmt)
  | [] => some []
  | stmt :: stmts => do
    let stmt ← foldStmt stmt
    let stmts ← foldStmts stmts
    some (stmt :: stmts)

end

/-- A purified variable is declared with its new type. -/
def declareVar (var : LocalVar) : Option LocalVar :=
  if targets.contains var.name then
    (translateType var.typ).map fun typ => { var with typ := typ }
  else some var

def foldBlock (block : CfgBlock) : Option CfgBlock :=
  (foldStmts targets predicates block.stmts).map fun stmts => { block with stmts := stmts }

end Purifier

/-- The successors are not folded. -/
def purifyMethod (predicates : List Predicate) (method : CfgMethod) : Option CfgMethod := do
  let localVars ← method.localVars.mapM (declareVar (collect method))
  let basicBlocks ← method.basicBlocks.mapM (foldBlock (collect method) predicates)
  some { method with localVars := localVars, basicBlocks := basicBlocks }

def purifyMethods (methods : List CfgMethod) (predicates : List Predicate) :
    Option (List CfgMethod) :=
  methods.mapM (purifyMethod predicates)

end Prusti.Optimizations.Purification

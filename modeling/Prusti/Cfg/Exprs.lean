/-
The expressions of a method: those of its statements and the guards of the
successors of its blocks.
-/
import Prusti.Cfg.Method
import Prusti.Vir.Nodes

namespace Prusti.Cfg

open Prusti.Vir

def Successor.guards : Successor → List Expr
  | .gotoSwitch guardedTargets _ => guardedTargets.map (·.1)
  | _ => []

namespace CfgMethod

/-- The statements of all blocks. -/
def stmts (method : CfgMethod) : List Stmt := method.basicBlocks.flatMap (·.stmts)

def stmtExprs (method : CfgMethod) : List Expr := Stmt.allExprs method.stmts

def guards (method : CfgMethod) : List Expr := method.basicBlocks.flatMap (·.successor.guards)

/-- Change every statement.  The successors stay. -/
def mapStmts (f : Stmt → Stmt) (method : CfgMethod) : CfgMethod :=
  { method with
    basicBlocks := method.basicBlocks.map fun block =>
      { block with stmts := block.stmts.map f } }

theorem stmts_mapStmts (f : Stmt → Stmt) (method : CfgMethod) :
    (method.mapStmts f).stmts = method.stmts.map f := by
  simp [stmts, mapStmts, List.flatMap_map, List.map_flatMap]

@[simp] theorem guards_mapStmts (f : Stmt → Stmt) (method : CfgMethod) :
    (method.mapStmts f).guards = method.guards := by
  simp [guards, mapStmts, List.flatMap_map]

/-- Every expression of the statements is folded once, the guards stay. -/
theorem stmtExprs_mapStmts_mapExprs (f : Expr → Expr) (method : CfgMethod) :
    (method.mapStmts (Stmt.mapExprs f)).stmtExprs = method.stmtExprs.map f := by
  rw [stmtExprs, stmts_mapStmts, ← Stmt.mapAllExprs_eq_map, Stmt.allExprs_mapAllExprs, stmtExprs]

end CfgMethod

end Prusti.Cfg

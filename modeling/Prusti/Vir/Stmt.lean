/-
The statements of the Viper intermediate representation.
-/
import Prusti.Vir.Transform

namespace Prusti.Vir

inductive AssignKind where
  /-- A Rust copy. -/
  | copy
  /-- A Rust move: the permissions of the source move to the target. -/
  | move
  /-- The initialization of a mutable borrow. -/
  | mutableBorrow (borrow : Borrow)
  /-- The initialization of a shared borrow. -/
  | sharedBorrow (borrow : Borrow)
  /-- An assignment to a ghost variable. -/
  | ghost
deriving Repr, DecidableEq

/-- Statements.  Of the reborrowing DAG of expiring borrows this has the statements of
the nodes, in their order; walkers and folders pass over them. -/
inductive Stmt where
  | comment (comment : String)
  | label (label : String)
  | inhale (expr : Expr)
  | exhale (expr : Expr) (pos : Position)
  | assert (expr : Expr) (pos : Position)
  | methodCall (name : String) (args : List Expr) (targets : List LocalVar)
  | assign (lhs rhs : Expr) (kind : AssignKind)
  | fold (name : String) (args : List Expr) (permAmount : PermAmount)
      (variant : Option EnumVariantIndex) (pos : Position)
  | unfold (name : String) (args : List Expr) (permAmount : PermAmount)
      (variant : Option EnumVariantIndex)
  /-- Permissions to be obtained by the fold-unfold algorithm. -/
  | obtain (expr : Expr) (pos : Position)
  /-- All current permissions are framed out. -/
  | beginFrame
  /-- The permissions of the corresponding `beginFrame` are framed in. -/
  | endFrame
  /-- Move permissions from a place to another, when a loan expires. -/
  | transferPerm (lhs rhs : Expr) (unchecked : Bool)
  | packageMagicWand (wand : Expr) (stmts : List Stmt) (label : String)
      (vars : List LocalVar) (pos : Position)
  | applyMagicWand (wand : Expr) (pos : Position)
  /-- Of the reborrowing DAG, the statements of its nodes. -/
  | expireBorrows (nodeStmts : List Stmt)
  | ite (guard : Expr) (thenStmts elseStmts : List Stmt)
  /-- From here on an enum place can be downcast to a variant. -/
  | downcast (enumPlace : Expr) (variantField : Field)
deriving Repr

end Prusti.Vir

/-
The pass `fix_quantifiers`: it moves unfoldings, old expressions, fields of variables
and operations that do not mention the bound variables out of the bodies of
quantifiers.
-/
import Prusti.Vir.Nodes
import Prusti.Cfg.Method

namespace Prusti.Vir.Expr

/-- Does the target occur in the expression?  Triggers are not walked. -/
def find (expr target : Expr) : Bool := expr.walked.any (· == target)

end Prusti.Vir.Expr

namespace Prusti.Optimizations.QuantifierFixer

open Prusti.Lib Prusti.Vir Prusti.Cfg

/-- A folder: it threads its state, and `none` stands for a panic. -/
abbrev Folder (σ : Type) := σ → Option (Expr × σ)

variable {σ : Type}

def foldAll : List (Folder σ) → σ → Option (List Expr × σ)
  | [], state => some ([], state)
  | fold :: folds, state => do
    let (expr, state) ← fold state
    let (exprs, state) ← foldAll folds state
    some (expr :: exprs, state)

/-- What a folder does by default: fold the sub-expressions, but not the triggers. -/
def defaultFold (node : Expr) (folds : List (Folder σ)) : Folder σ := fun state => do
  let (parts, state) ← foldAll folds state
  some (node.rebuild parts, state)

section Replacer

structure Replacer where
  counter : Nat
  map : HashMap Expr LocalVar

def letName (number : Nat) : String := "_LET_" ++ toString number

namespace Replacer

def new (counter : Nat) : Replacer := ⟨counter, HashMap.empty⟩

def constructFreshLocal (replacer : Replacer) (typ : Typ) : LocalVar :=
  ⟨letName replacer.counter, typ⟩

/-- The local that stands for an expression, a new one if there is none yet. -/
def replaceBy (replacer : Replacer) (expr : Expr) (typ : Option Typ) (pos : Position) :
    Option (Expr × Replacer) :=
  match replacer.map.get? expr with
  | some var => some (.localVar var pos, replacer)
  | none => do
    let var := replacer.constructFreshLocal (← typ)
    some (.localVar var pos, ⟨replacer.counter + 1, replacer.map.insert expr var⟩)

def replaceExpr (replacer : Replacer) (expr : Expr) (pos : Position) : Option (Expr × Replacer) :=
  replacer.replaceBy expr expr.getType pos

def containsBounded (boundVars : List LocalVar) (expr : Expr) : Bool :=
  boundVars.any fun var => expr.find (.ofLocal var)

def foldNode (boundVars : List LocalVar) (node : Expr) (folds : List (Folder Replacer)) :
    Folder Replacer := fun replacer =>
  match node with
  | .labelledOld _ base pos =>
    if base.isPlace then replacer.replaceBy node base.getType pos
    else some (node, replacer)
  | .binOp _ left right pos =>
    if containsBounded boundVars left || containsBounded boundVars right then
      -- The expression contains bounded variables. Cannot pull it out.
      defaultFold node folds replacer
    else replacer.replaceExpr node pos
  | .field base _ pos =>
    if base.isLocal then replacer.replaceExpr node pos else some (node, replacer)
  | .forAll _ _ _ _ => some (node, replacer)
  | _ => defaultFold node folds replacer

def fold (boundVars : List LocalVar) (expr : Expr) : Folder Replacer :=
  expr.para fun node folds _ => foldNode boundVars node folds

end Replacer

end Replacer

section Optimizer

/-- The pulled out expressions as lets around an expression. -/
def wrapLets (entries : List (Expr × LocalVar)) (expr : Expr) (pos : Position) : Expr :=
  entries.foldl (fun expr entry => .letExpr entry.2 entry.1 expr pos) expr

/-- The optimizer leaves magic wands alone. -/
def foldNode (order : IterOrder) (node : Expr) (folds : List (Folder Nat)) : Folder Nat :=
  fun counter =>
  match node, folds with
  | .magicWand _ _ _ _, _ => some (node, counter)
  | .forAll vars triggers _ pos, [foldBody] => do
    let (body, counter) ← foldBody counter
    let (body, replacer) ← Replacer.fold vars body (Replacer.new counter)
    let expr := Expr.forAll vars triggers body pos
    if counter < replacer.counter then
      some (wrapLets (order.iter counter replacer.map.entries) expr pos, replacer.counter)
    else some (expr, replacer.counter)
  | _, _ => defaultFold node folds counter

def replaceExprOld (order : IterOrder) (expr : Expr) : Folder Nat :=
  expr.para fun node folds _ => foldNode order node folds

theorem replaceExprOld_eq (order : IterOrder) (expr : Expr) (counter : Nat) :
    replaceExprOld order expr counter =
      foldNode order expr (expr.children.map (replaceExprOld order)) counter :=
  congrFun (Expr.para_eq _ expr) counter

end Optimizer

section UnfoldingExtractor

abbrev UnfoldingKey := String × List Expr

/-- The number of the quantifiers met so far names the iteration order. -/
structure UnfoldingExtractor where
  unfoldings : HashMap UnfoldingKey (PermAmount × Option EnumVariantIndex × Position)
  inQuantifier : Bool
  quantifiers : Nat

namespace UnfoldingExtractor

def wrapUnfoldings (entries : List (UnfoldingKey × PermAmount × Option EnumVariantIndex × Position))
    (expr : Expr) (pos : Position) : Expr :=
  entries.foldl
    (fun expr entry => .unfolding entry.1.1 entry.1.2 expr entry.2.1 entry.2.2.1 pos) expr

def foldNode (order : IterOrder) (node : Expr) (folds : List (Folder UnfoldingExtractor)) :
    Folder UnfoldingExtractor := fun state =>
  match node, folds with
  | .forAll vars triggers _ pos, [foldBody] =>
    -- Nested quantifiers are not supported.
    if !state.unfoldings.entries.isEmpty then none
    else do
      let (body, state) ← foldBody { state with inQuantifier := true }
      let entries := order.iter state.quantifiers state.unfoldings.entries
      some (wrapUnfoldings entries (.forAll vars triggers body pos) pos,
        ⟨HashMap.empty, false, state.quantifiers + 1⟩)
  | .unfolding name args _ perm variant pos, folds =>
    if state.inQuantifier then do
      let foldBody ← folds.getLast?
      foldBody { state with
        unfoldings := state.unfoldings.insert (name, args) (perm, variant, pos) }
    else some (node, state)
  | .labelledOld _ _ _, _ => some (node, state)
  | _, _ => defaultFold node folds state

def fold (order : IterOrder) (expr : Expr) : Folder UnfoldingExtractor :=
  expr.para fun node folds _ => foldNode order node folds

end UnfoldingExtractor

theorem extractorFold_eq (order : IterOrder) (expr : Expr) (state : UnfoldingExtractor) :
    UnfoldingExtractor.fold order expr state = UnfoldingExtractor.foldNode order expr
      (expr.children.map (UnfoldingExtractor.fold order)) state :=
  congrFun (Expr.para_eq _ expr) state

def replaceExprUnfolding (order : IterOrder) (expr : Expr) : Option Expr := do
  let (expr, _) ← UnfoldingExtractor.fold order expr ⟨HashMap.empty, false, 0⟩
  some expr

end UnfoldingExtractor

/-- The rewriting of an asserted or inhaled expression. -/
def fixExpr (order : IterOrder) (expr : Expr) : Folder Nat := fun counter => do
  let pulledUnfolding ← replaceExprUnfolding (order.call 0) expr
  replaceExprOld (order.call 1) pulledUnfolding counter

end Prusti.Optimizations.QuantifierFixer

/-
The instantiation of generic types by replacing texts in names, compared with a renaming of
all names of types.
-/
import Prusti.Vir.Nodes
import Prusti.Lib.Replace

namespace Prusti.Vir

section Patch

/-- The substitutions, in the order in which the hash map goes through them. -/
def patchName (substs : List (String × String)) (name : String) : String :=
  substs.foldl (fun name (typ, subst) =>
    String.ofList (Lib.replace typ.toList subst.toList name.toList)) name

theorem patchName_cons (typ subst : String) (substs : List (String × String)) (name : String) :
    patchName ((typ, subst) :: substs) name =
      patchName substs (String.ofList (Lib.replace typ.toList subst.toList name.toList)) := rfl

variable (substs : List (String × String))

/-- Replace all generic types with their instantiations by using string substitution. -/
def Typ.patch : Typ → Typ
  | typedRef predicateName => typedRef (patchName substs predicateName)
  | typ => typ

def LocalVar.patch (var : LocalVar) : LocalVar := ⟨var.name, var.typ.patch substs⟩

namespace Expr

/-- The nodes at which the patcher does more than every folder does. -/
def patchNode : Expr → Expr
  | localVar var pos => localVar (var.patch substs) pos
  | predicateAccessPredicate predicateName arg perm pos =>
    predicateAccessPredicate (patchName substs predicateName) arg perm pos
  -- the return type is not patched because pure functions cannot return generic values
  | funcApp name args formalArgs returnType pos =>
    funcApp name args (formalArgs.map (LocalVar.patch substs)) returnType pos
  | expr => expr

/-- Replace all generic types with their instantiations by using string substitution. -/
def patchTypes (expr : Expr) : Expr :=
  expr.para fun node parts _ => (node.patchNode substs).rebuild parts

end Expr

end Patch

/-- Replace all generic types of a name in one step. -/
def replaceNames (substs : List (String × String)) (name : String) : String :=
  String.ofList (Lib.replaceTogether
    (substs.map fun (typ, subst) => (typ.toList, subst.toList)) name.toList)

section Rename

variable (f : String → String)

/-- Rename all names of types in a type. -/
def Typ.mapNames : Typ → Typ
  | typedRef name => typedRef (f name)
  | domain name => domain (f name)
  | snapshot name => snapshot (f name)
  | seq elem => seq elem.mapNames
  | typ => typ

def LocalVar.mapNames (var : LocalVar) : LocalVar := ⟨var.name, var.typ.mapNames f⟩

namespace Expr

def mapNode : Expr → Expr
  | localVar var pos => localVar (var.mapNames f) pos
  | predicateAccessPredicate name arg perm pos => predicateAccessPredicate (f name) arg perm pos
  | unfolding name args base perm index pos => unfolding (f name) args base perm index pos
  | forAll vars triggers body pos => forAll (vars.map (LocalVar.mapNames f)) triggers body pos
  | exist vars triggers body pos => exist (vars.map (LocalVar.mapNames f)) triggers body pos
  | letExpr var expr body pos => letExpr (var.mapNames f) expr body pos
  | funcApp name args formalArgs returnType pos =>
    funcApp name args (formalArgs.map (LocalVar.mapNames f)) returnType pos
  | domainFuncApp func args pos =>
    domainFuncApp { func with formalArgs := func.formalArgs.map (LocalVar.mapNames f) } args pos
  | expr => expr

/-- The quantifier with other triggers. -/
def withTriggers : Expr → List (List Expr) → Expr
  | forAll vars _ body pos, triggers => forAll vars triggers body pos
  | exist vars _ body pos, triggers => exist vars triggers body pos
  | expr, _ => expr

/-- Rename the predicates and the types of all variables and formal arguments, those in
triggers included. -/
def mapNames (expr : Expr) : Expr :=
  expr.para fun node parts triggers => ((node.mapNode f).rebuild parts).withTriggers triggers

end Expr

end Rename

section Names

def Typ.names : Typ → List String
  | typedRef name | domain name | snapshot name => [name]
  | seq elem => elem.names
  | _ => []

/-- The names of a type that the patcher visits. -/
def Typ.patchedNames : Typ → List String
  | typedRef name => [name]
  | _ => []

def Typ.missedNames : Typ → List String
  | typedRef _ => []
  | typ => typ.names

namespace Expr

def patchedNode : Expr → List String
  | localVar var _ => var.typ.patchedNames
  | predicateAccessPredicate name _ _ _ => [name]
  | funcApp _ _ formalArgs _ _ => formalArgs.flatMap fun var => var.typ.patchedNames
  | _ => []

def missedNode : Expr → List String
  | localVar var _ => var.typ.missedNames
  | unfolding name _ _ _ _ _ => [name]
  | forAll vars _ _ _ | exist vars _ _ _ => vars.flatMap fun var => var.typ.names
  | letExpr var _ _ _ => var.typ.names
  | funcApp _ _ formalArgs _ _ => formalArgs.flatMap fun var => var.typ.missedNames
  | domainFuncApp func _ _ => func.formalArgs.flatMap fun var => var.typ.names
  | _ => []

/-- The names that the patcher visits. -/
def patchedNames (expr : Expr) : List String := expr.walked.flatMap patchedNode

/-- The names of predicates and types that the patcher misses, those of the triggers among
them. -/
def missedNames (expr : Expr) : List String :=
  expr.walked.flatMap missedNode ++
    expr.hidden.flatMap fun node => node.patchedNode ++ node.missedNode

end Expr

end Names

section Equal

variable {substs : List (String × String)} {f : String → String}

theorem Typ.mapNames_eq_self_iff (typ : Typ) :
    typ = typ.mapNames f ↔ ∀ name ∈ typ.names, name = f name := by
  induction typ with
  | seq elem ih => simpa [mapNames, names] using ih
  | _ => simp [mapNames, names]

theorem Typ.patch_eq_mapNames_iff (typ : Typ) :
    typ.patch substs = typ.mapNames f ↔
      (∀ name ∈ typ.patchedNames, patchName substs name = f name) ∧
        ∀ name ∈ typ.missedNames, name = f name := by
  cases typ with
  | seq elem =>
    have helem := elem.mapNames_eq_self_iff (f := f)
    simpa [patch, mapNames, patchedNames, missedNames, names] using helem
  | _ => simp [patch, mapNames, patchedNames, missedNames, names]

theorem LocalVar.mapNames_eq_self_iff (var : LocalVar) :
    var = var.mapNames f ↔ ∀ name ∈ var.typ.names, name = f name := by
  rw [← Typ.mapNames_eq_self_iff]
  cases var
  simp [mapNames]

theorem LocalVar.patch_eq_mapNames_iff (var : LocalVar) :
    var.patch substs = var.mapNames f ↔
      (∀ name ∈ var.typ.patchedNames, patchName substs name = f name) ∧
        ∀ name ∈ var.typ.missedNames, name = f name := by
  rw [← Typ.patch_eq_mapNames_iff]
  simp [patch, mapNames]

theorem eq_map_self_iff {α : Type} {g : α → α} (elems : List α) :
    elems = elems.map g ↔ ∀ elem ∈ elems, elem = g elem := by
  induction elems with
  | nil => simp
  | cons elem elems ih => rw [List.map_cons, List.cons.injEq, ih, List.forall_mem_cons]

theorem map_mapNames_eq_self_iff (vars : List LocalVar) :
    vars = vars.map (LocalVar.mapNames f) ↔
      ∀ name ∈ vars.flatMap fun var => var.typ.names, name = f name := by
  rw [eq_map_self_iff, List.forall_mem_flatMap]
  exact forall₂_congr fun var _ => var.mapNames_eq_self_iff

theorem map_patch_eq_map_mapNames_iff (vars : List LocalVar) :
    vars.map (LocalVar.patch substs) = vars.map (LocalVar.mapNames f) ↔
      (∀ name ∈ vars.flatMap fun var => var.typ.patchedNames, patchName substs name = f name) ∧
        ∀ name ∈ vars.flatMap fun var => var.typ.missedNames, name = f name := by
  rw [List.map_inj_left, List.forall_mem_flatMap, List.forall_mem_flatMap, ← forall₂_and]
  exact forall₂_congr fun var _ => var.patch_eq_mapNames_iff

namespace Expr

theorem patchTypes_eq (expr : Expr) :
    expr.patchTypes substs =
      (expr.patchNode substs).rebuild (expr.children.map (patchTypes substs)) :=
  para_eq _ expr

theorem mapNames_eq (expr : Expr) :
    expr.mapNames f = ((expr.mapNode f).rebuild (expr.children.map (mapNames f))).withTriggers
      (expr.triggers.map (List.map (mapNames f))) :=
  para_eq _ expr

/-- Two nodes are equal if the names of the nodes and their parts are. -/
theorem node_eq_iff (expr : Expr) (left right trigger : Expr → Expr) :
    (expr.patchNode substs).rebuild (expr.children.map left) =
        ((expr.mapNode f).rebuild (expr.children.map right)).withTriggers
          (expr.triggers.map (List.map trigger)) ↔
      ((∀ name ∈ expr.patchedNode, patchName substs name = f name) ∧
        ∀ name ∈ expr.missedNode, name = f name) ∧
      (∀ child ∈ expr.children, left child = right child) ∧
        ∀ parts ∈ expr.triggers, ∀ part ∈ parts, part = trigger part := by
  have htriggers : ∀ triggers : List (List Expr),
      triggers = triggers.map (List.map trigger) ↔
        ∀ parts ∈ triggers, ∀ part ∈ parts, part = trigger part := by
    intro triggers
    rw [eq_map_self_iff]
    exact forall₂_congr fun parts _ => eq_map_self_iff parts
  cases expr with
  | localVar var =>
    simpa [patchNode, mapNode, rebuild, withTriggers, children, triggers, patchedNode,
      missedNode] using var.patch_eq_mapNames_iff
  | letExpr var =>
    simp only [patchNode, mapNode, rebuild, withTriggers, children, triggers, patchedNode,
      missedNode, List.map_cons, List.map_nil, letExpr.injEq, var.mapNames_eq_self_iff]
    simp
  | unfolding name args base =>
    have hmem : (∀ child ∈ args ++ [base], left child = right child) ↔
        (∀ child ∈ args, left child = right child) ∧ left base = right base := by
      rw [List.forall_mem_append, List.forall_mem_singleton]
    simp [patchNode, mapNode, rebuild, withTriggers, triggers, patchedNode, missedNode,
      children, ← hmem]
  | forAll vars parts body | exist vars parts body =>
    simp only [patchNode, mapNode, rebuild, withTriggers, children, Expr.triggers, patchedNode,
      missedNode, List.map_cons, List.map_nil, forAll.injEq, exist.injEq, htriggers parts,
      map_mapNames_eq_self_iff, List.forall_mem_singleton]
    simp [and_comm]
  | funcApp name args formalArgs =>
    have hformal := @map_patch_eq_map_mapNames_iff substs f formalArgs
    simp only [patchNode, mapNode, rebuild, withTriggers, children, Expr.triggers, patchedNode,
      missedNode, funcApp.injEq, hformal, List.map_inj_left]
    simp [and_comm]
  | domainFuncApp func args =>
    cases func
    simp only [patchNode, mapNode, rebuild, withTriggers, children, Expr.triggers, patchedNode,
      missedNode, domainFuncApp.injEq, DomainFunc.mk.injEq, map_mapNames_eq_self_iff,
      List.map_inj_left]
    simp
  | _ =>
    simp [patchNode, mapNode, rebuild, withTriggers, children, triggers, patchedNode, missedNode]

theorem patchTypes_nil (expr : Expr) : expr.patchTypes [] = expr := by
  induction expr using Expr.children_induction with
  | h expr ih _ =>
  have hnode : expr.patchNode [] = expr := by
    have hvar : ∀ var : LocalVar, var.patch [] = var := by
      rintro ⟨name, typ⟩
      cases typ <;> rfl
    cases expr with
    | localVar var => rw [patchNode, hvar]
    | funcApp name args formalArgs =>
      rw [patchNode, List.map_congr_left fun var _ => hvar var]
      simp
    | _ => rfl
  rw [patchTypes_eq, hnode, List.map_congr_left ih, List.map_id', rebuild_children]

theorem forall_walked_iff {P : Expr → Prop} (expr : Expr) :
    (∀ node ∈ expr.walked, P node) ↔
      P expr ∧ ∀ child ∈ expr.children, ∀ node ∈ child.walked, P node := by
  rw [walked_eq, List.forall_mem_cons]
  simp only [List.forall_mem_flatten, List.forall_mem_map]

theorem forall_hidden_iff {P : Expr → Prop} (expr : Expr) :
    (∀ node ∈ expr.hidden, P node) ↔
      (∀ child ∈ expr.children, ∀ node ∈ child.hidden, P node) ∧
        ∀ trigger ∈ expr.triggers, ∀ part ∈ trigger,
          (∀ node ∈ part.walked, P node) ∧ ∀ node ∈ part.hidden, P node := by
  have hnodes : ∀ part : Expr, (∀ node ∈ part.nodes, P node) ↔
      (∀ node ∈ part.walked, P node) ∧ ∀ node ∈ part.hidden, P node := by
    intro part
    simp only [mem_nodes_iff_walked_or_hidden, or_imp, forall_and]
  have hhidden : ∀ other : Expr, (∀ node ∈ other.hidden, P node) ↔
      ∀ inner ∈ other.walked, ∀ trigger ∈ inner.triggers, ∀ part ∈ trigger,
        (∀ node ∈ part.walked, P node) ∧ ∀ node ∈ part.hidden, P node := by
    intro other
    rw [hidden, List.forall_mem_flatMap]
    simp only [List.forall_mem_flatMap, List.forall_mem_flatten, hnodes]
  rw [hhidden, forall_walked_iff, and_comm]
  exact and_congr_left fun _ => forall₂_congr fun child _ => (hhidden child).symm

theorem forall_patchedNames_iff {P : String → Prop} (expr : Expr) :
    (∀ name ∈ expr.patchedNames, P name) ↔
      (∀ name ∈ expr.patchedNode, P name) ∧
        ∀ child ∈ expr.children, ∀ name ∈ child.patchedNames, P name := by
  simp only [patchedNames, List.forall_mem_flatMap]
  exact forall_walked_iff expr

theorem forall_missedNames_iff {P : String → Prop} (expr : Expr) :
    (∀ name ∈ expr.missedNames, P name) ↔
      (∀ name ∈ expr.missedNode, P name) ∧
        (∀ child ∈ expr.children, ∀ name ∈ child.missedNames, P name) ∧
          ∀ trigger ∈ expr.triggers, ∀ part ∈ trigger,
            (∀ name ∈ part.patchedNames, P name) ∧ ∀ name ∈ part.missedNames, P name := by
  simp only [missedNames, patchedNames, List.forall_mem_append, List.forall_mem_flatMap]
  rw [forall_walked_iff, forall_hidden_iff]
  simp only [forall_and]
  tauto

/-- The patcher renames all names as `f` does, if it patches the names that it visits so and
the others need no change. -/
theorem patchTypes_eq_mapNames_iff (expr : Expr) :
    expr.patchTypes substs = expr.mapNames f ↔
      (∀ name ∈ expr.patchedNames, patchName substs name = f name) ∧
        ∀ name ∈ expr.missedNames, name = f name := by
  induction expr using Expr.children_induction generalizing substs with
  | h expr ih ihtriggers =>
  have hpart : ∀ trigger ∈ expr.triggers, ∀ part ∈ trigger, (part = part.mapNames f ↔
      (∀ name ∈ part.patchedNames, name = f name) ∧ ∀ name ∈ part.missedNames, name = f name) := by
    intro trigger htrigger part hpart
    have hnil := @ihtriggers trigger htrigger part hpart []
    rwa [patchTypes_nil] at hnil
  have hchildren := forall₂_congr fun child hchild => @ih child hchild substs
  have htriggers := forall₂_congr fun trigger htrigger =>
    forall₂_congr fun part hpart' => hpart trigger htrigger part hpart'
  rw [patchTypes_eq, mapNames_eq, node_eq_iff, forall_patchedNames_iff, forall_missedNames_iff,
    hchildren, htriggers]
  simp only [forall_and]
  tauto

end Expr

end Equal

end Prusti.Vir

/-
Which shared references can be replaced by pure variables: those that do not flow into a
variable that is dereferenced, nor from one that borrows.
-/
import Prusti.Cfg.Exprs
import Prusti.Lib.ConsumedEdges

namespace Prusti.Encoder

open Relation
open Prusti.Vir Prusti.Cfg Prusti.Lib

/-- What is collected about the variables of a method, by their names. -/
structure VarDependencyCollector where
  /-- (Potentially) references that are dereferenced. -/
  dereferencedVariables : HashSet String
  /-- (Potentially) references that borrow other variables. -/
  borrowingVariables : HashSet String
  /-- For each variable those that are assigned to it. -/
  dependencies : HashMap String (HashSet String)
  /-- For each variable those that it is assigned to. -/
  dependents : HashMap String (HashSet String)

def collectVariables (expr : Expr) : HashSet String :=
  expr.walked.foldl (fun vars node =>
    match node with
    | .localVar var _ => HashSet.insert vars var.name
    | _ => vars) HashMap.empty

/-- Add to the entry of a name. -/
def extendEntry (entries : HashMap String (HashSet String)) (name : String)
    (names : HashSet String) : HashMap String (HashSet String) :=
  entries.insert name (HashSet.union ((entries.get? name).getD HashMap.empty) names)

/-- Reborrowing is fine. -/
def isReborrow : Expr → Bool
  | .field (.localVar _ _) fld _ => fld.name == "val_ref"
  | _ => false

/-- The variable that borrows by an assignment. -/
def borrowingVariable (target source : Expr) : AssignKind → Option String
  | .sharedBorrow _ | .mutableBorrow _ =>
    match target with
    | .field (.localVar var _) _ _ => if isReborrow source then none else some var.name
    | _ => none
  | _ => none

namespace VarDependencyCollector

def initial : VarDependencyCollector := ⟨HashMap.empty, HashMap.empty, HashMap.empty, HashMap.empty⟩

/-- The walk of a node, by the walks of its sub-expressions.  A variable that is accessed
two levels down is assumed to be dereferenced. -/
def walkNode (node : Expr) (parts : List (VarDependencyCollector → VarDependencyCollector))
    (collector : VarDependencyCollector) : VarDependencyCollector :=
  match node with
  | .field (.field (.localVar var _) _ _) _ _ =>
    { collector with
      dereferencedVariables := HashSet.insert collector.dereferencedVariables var.name }
  | _ => parts.foldl (fun collector part => part collector) collector

def walkExpr (collector : VarDependencyCollector) (expr : Expr) : VarDependencyCollector :=
  expr.para (fun node parts _ => walkNode node parts) collector

def walkAssign (order : IterOrder) (collector : VarDependencyCollector) (target source : Expr)
    (kind : AssignKind) : VarDependencyCollector :=
  let dependencies := collectVariables source
  let dependents := collectVariables target
  let collector : VarDependencyCollector :=
    { collector with
      dependencies := (order.iter 0 dependents.keys).foldl
        (fun entries dependent => extendEntry entries dependent dependencies)
        collector.dependencies
      dependents := (order.iter 1 dependencies.keys).foldl
        (fun entries dependency => extendEntry entries dependency dependents)
        collector.dependents
      borrowingVariables :=
        match borrowingVariable target source kind with
        | some name => HashSet.insert collector.borrowingVariables name
        | none => collector.borrowingVariables }
  (collector.walkExpr target).walkExpr source

mutual

def walkStmt (order : IterOrder) (collector : VarDependencyCollector) :
    Stmt → VarDependencyCollector
  | .assign target source kind => collector.walkAssign order target source kind
  | .packageMagicWand wand stmts _ _ _ => walkStmts (order.call 0) (collector.walkExpr wand) stmts
  | .ite guard thenStmts elseStmts =>
    walkStmts (order.call 1)
      (walkStmts (order.call 0) (collector.walkExpr guard) thenStmts) elseStmts
  | stmt => stmt.ownExprs.foldl walkExpr collector

def walkStmts (order : IterOrder) (collector : VarDependencyCollector) :
    List Stmt → VarDependencyCollector
  | [] => collector
  | stmt :: stmts => walkStmts (order.call 1) (walkStmt (order.call 0) collector stmt) stmts

end

def walkMethod (order : IterOrder) (method : CfgMethod) : VarDependencyCollector :=
  method.guards.foldl walkExpr (walkStmts order initial method.stmts)

/-- Dependencies of dereferenced variables are dereferenced, too. -/
def computeDereferencedVariablesFixpoint (order : IterOrder) (fuel : Nat)
    (collector : VarDependencyCollector) : Option VarDependencyCollector :=
  (consumeEdges order fuel collector.dependencies collector.dereferencedVariables).map
    fun result =>
      { collector with dependencies := result.1, dereferencedVariables := result.2 }

/-- Dependents of borrowing variables borrow, too. -/
def computeBorrowingVariablesFixpoint (order : IterOrder) (fuel : Nat)
    (collector : VarDependencyCollector) : Option VarDependencyCollector :=
  (consumeEdges order fuel collector.dependents collector.borrowingVariables).map
    fun result =>
      { collector with dependents := result.1, borrowingVariables := result.2 }

/-- What is known about a method in the end. -/
def collect (order : IterOrder) (fuel : Nat) (method : CfgMethod) :
    Option VarDependencyCollector := do
  let collector := walkMethod (order.call 0) method
  let collector ← collector.computeDereferencedVariablesFixpoint (order.call 1) fuel
  collector.computeBorrowingVariablesFixpoint (order.call 2) fuel

end VarDependencyCollector

/-- The local variables that are references. -/
def candidates (method : CfgMethod) : HashSet String :=
  method.localVars.foldl (fun names var =>
    match var.typ with
    | .typedRef typ => if typ.startsWith "ref$" then HashSet.insert names var.name else names
    | _ => names) HashMap.empty

/-- The variables that get purified. -/
def purifiedReferences (order : IterOrder) (fuel : Nat) (method : CfgMethod) :
    Option (HashSet String) :=
  if (candidates method).entries.isEmpty then some (candidates method)
  else do
    let collector ← VarDependencyCollector.collect order fuel method
    some (((candidates method).retain fun name => !collector.dereferencedVariables.contains name)
      |>.retain fun name => !collector.borrowingVariables.contains name)

/-- The variable occurs in the expression, outside of triggers. -/
def Mentions (expr : Expr) (name : String) : Prop :=
  ∃ var pos, Expr.localVar var pos ∈ expr.walked ∧ var.name = name

/-- The variable is accessed two levels down. -/
def Dereferences (expr : Expr) (name : String) : Prop :=
  ∃ var pos fld pos' fld' pos'',
    Expr.field (.field (.localVar var pos) fld pos') fld' pos'' ∈ expr.walked ∧ var.name = name

/-- One of the statements, or of those nested in them, assigns an expression with the first
variable to one with the second. -/
def FlowsInto (stmts : List Stmt) (name name' : String) : Prop :=
  ∃ target source kind, Stmt.assign target source kind ∈ Stmt.allNested stmts ∧
    Mentions source name ∧ Mentions target name'

/-- One of the statements makes the variable borrow. -/
def Borrows (stmts : List Stmt) (name : String) : Prop :=
  ∃ target source kind, Stmt.assign target source kind ∈ Stmt.allNested stmts ∧
    borrowingVariable target source kind = some name

theorem contains_collectVariables_iff (expr : Expr) (name : String) :
    (collectVariables expr).contains name = true ↔ Mentions expr name := by
  have hfold : ∀ (nodes : List Expr) (vars : HashSet String),
      (nodes.foldl (fun vars node =>
          match node with
          | .localVar var _ => HashSet.insert vars var.name
          | _ => vars) vars).contains name = true ↔
        vars.contains name = true ∨ ∃ var pos, Expr.localVar var pos ∈ nodes ∧ var.name = name := by
    intro nodes
    induction nodes with
    | nil => simp
    | cons node nodes ih =>
      intro vars
      rw [List.foldl_cons, ih]
      simp only [List.mem_cons]
      cases node with
      | localVar var pos =>
        simp only [HashSet.contains_insert_iff, Expr.localVar.injEq]
        constructor
        · rintro ((hold | rfl) | ⟨var', pos', hmem, hname⟩)
          · exact .inl hold
          · exact .inr ⟨var, pos, .inl ⟨rfl, rfl⟩, rfl⟩
          · exact .inr ⟨var', pos', .inr hmem, hname⟩
        · rintro (hold | ⟨var', pos', ⟨rfl, rfl⟩ | hmem, rfl⟩)
          · exact .inl (.inl hold)
          · exact .inl (.inr rfl)
          · exact .inr ⟨var', pos', hmem, rfl⟩
      | _ => simp
  rw [collectVariables, hfold]
  simp [Mentions, HashMap.contains, HashMap.empty]

theorem mapEdge_extendEntry_iff (entries : HashMap String (HashSet String)) (name : String)
    (names : HashSet String) (u v : String) :
    MapEdge (extendEntry entries name names) u v ↔
      MapEdge entries u v ∨ u = name ∧ names.contains v = true := by
  rw [MapEdge, extendEntry, HashMap.get?_insert]
  by_cases h : name = u
  · subst h
    simp only [beq_self_eq_true, if_true, Option.some.injEq, exists_eq_left', true_and,
      HashSet.contains_union_iff]
    refine or_congr_left ?_
    rw [MapEdge]
    cases entries.get? name with
    | none => simp [HashMap.contains, HashMap.empty]
    | some targets => simp
  · rw [if_neg (by simpa using h)]
    simp [MapEdge, Ne.symm h]

theorem mapEdge_foldl_extendEntry_iff (keys : List String) (names : HashSet String)
    (entries : HashMap String (HashSet String)) (u v : String) :
    MapEdge (keys.foldl (fun entries name => extendEntry entries name names) entries) u v ↔
      MapEdge entries u v ∨ u ∈ keys ∧ names.contains v = true := by
  induction keys generalizing entries with
  | nil => simp
  | cons name keys ih =>
    rw [List.foldl_cons, ih, mapEdge_extendEntry_iff, List.mem_cons, or_and_right, or_assoc]

/-- What a walk adds to what was collected. -/
structure Adds (before after : VarDependencyCollector) (derefs borrows : String → Prop)
    (flows : String → String → Prop) : Prop where
  dereferenced : ∀ name, after.dereferencedVariables.contains name = true ↔
    before.dereferencedVariables.contains name = true ∨ derefs name
  borrowing : ∀ name, after.borrowingVariables.contains name = true ↔
    before.borrowingVariables.contains name = true ∨ borrows name
  dependencies : ∀ u v, MapEdge after.dependencies u v ↔ MapEdge before.dependencies u v ∨ flows v u
  dependents : ∀ u v, MapEdge after.dependents u v ↔ MapEdge before.dependents u v ∨ flows u v

namespace Adds

variable {first second third : VarDependencyCollector}
  {derefs derefs' borrows borrows' : String → Prop}
  {flows flows' : String → String → Prop} {stmts : List Stmt}

theorem refl (collector : VarDependencyCollector) :
    Adds collector collector (fun _ => False) (fun _ => False) fun _ _ => False :=
  ⟨fun _ => (or_false _).symm.to_iff, fun _ => (or_false _).symm.to_iff,
    fun _ _ => (or_false _).symm.to_iff, fun _ _ => (or_false _).symm.to_iff⟩

theorem trans (h : Adds first second derefs borrows flows)
    (h' : Adds second third derefs' borrows' flows') :
    Adds first third (fun name => derefs name ∨ derefs' name)
      (fun name => borrows name ∨ borrows' name) fun u v => flows u v ∨ flows' u v where
  dereferenced name := by rw [h'.dereferenced, h.dereferenced, or_assoc]
  borrowing name := by rw [h'.borrowing, h.borrowing, or_assoc]
  dependencies u v := by rw [h'.dependencies, h.dependencies, or_assoc]
  dependents u v := by rw [h'.dependents, h.dependents, or_assoc]

theorem congr (h : Adds first second derefs borrows flows)
    (hderefs : ∀ name, derefs name ↔ derefs' name) (hborrows : ∀ name, borrows name ↔ borrows' name)
    (hflows : ∀ u v, flows u v ↔ flows' u v) : Adds first second derefs' borrows' flows' where
  dereferenced name := by rw [h.dereferenced, hderefs]
  borrowing name := by rw [h.borrowing, hborrows]
  dependencies u v := by rw [h.dependencies, hflows]
  dependents u v := by rw [h.dependents, hflows]

/-- A walk over several things that only meet dereferenced variables. -/
theorem foldl {α : Type} {walk : VarDependencyCollector → α → VarDependencyCollector}
    {derefs : α → String → Prop} (items : List α)
    (h : ∀ item ∈ items, ∀ collector, Adds collector (walk collector item) (derefs item)
      (fun _ => False) fun _ _ => False) (collector : VarDependencyCollector) :
    Adds collector (items.foldl walk collector) (fun name => ∃ item ∈ items, derefs item name)
      (fun _ => False) fun _ _ => False := by
  induction items generalizing collector with
  | nil => exact (refl collector).congr (by simp) (by simp) (by simp)
  | cons item items ih =>
    rw [List.forall_mem_cons] at h
    refine ((h.1 collector).trans (ih h.2 _)).congr (fun name => ?_) (by simp) (by simp)
    rw [List.exists_mem_cons_iff]

end Adds

namespace VarDependencyCollector

open Expr in
theorem walkNode_of_ne {node : Expr}
    (h : ∀ var pos fld pos' fld' pos'', field (field (localVar var pos) fld pos') fld' pos'' ≠ node)
    (parts : List (VarDependencyCollector → VarDependencyCollector))
    (collector : VarDependencyCollector) :
    walkNode node parts collector =
      parts.foldl (fun collector part => part collector) collector := by
  unfold walkNode
  split
  · exact absurd rfl (h _ _ _ _ _ _)
  · rfl

open Expr in
theorem adds_walkExpr (expr : Expr) (collector : VarDependencyCollector) :
    Adds collector (collector.walkExpr expr) (Dereferences expr) (fun _ => False)
      fun _ _ => False := by
  induction expr using Expr.children_induction generalizing collector with
  | h expr ih _ =>
  have hparts : ∀ collector, Adds collector
      ((expr.children.map (para fun node parts _ => walkNode node parts)).foldl
        (fun collector part => part collector) collector)
      (fun name => ∃ child ∈ expr.children, Dereferences child name) (fun _ => False)
      fun _ _ => False := fun collector => by
    rw [List.foldl_map]
    exact Adds.foldl expr.children ih collector
  have hnode : ∀ name, Dereferences expr name ↔
      (∃ var pos fld pos' fld' pos'',
        field (field (localVar var pos) fld pos') fld' pos'' = expr ∧ var.name = name) ∨
      ∃ child ∈ expr.children, Dereferences child name := fun name => by
    simp only [Dereferences, @mem_walked_iff expr]
    constructor
    · rintro ⟨var, pos, fld, pos', fld', pos'', heq | ⟨child, hchild, hmem⟩, hname⟩
      · exact .inl ⟨var, pos, fld, pos', fld', pos'', heq, hname⟩
      · exact .inr ⟨child, hchild, var, pos, fld, pos', fld', pos'', hmem, hname⟩
    · rintro (⟨var, pos, fld, pos', fld', pos'', heq, hname⟩ |
        ⟨child, hchild, var, pos, fld, pos', fld', pos'', hmem, hname⟩)
      · exact ⟨var, pos, fld, pos', fld', pos'', .inl heq, hname⟩
      · exact ⟨var, pos, fld, pos', fld', pos'', .inr ⟨child, hchild, hmem⟩, hname⟩
  rw [walkExpr, para_eq]
  by_cases hfield : ∃ var pos fld pos' fld' pos'',
      field (field (localVar var pos) fld pos') fld' pos'' = expr
  · obtain ⟨var, pos, fld, pos', fld', pos'', rfl⟩ := hfield
    refine ⟨fun name => ?_, fun _ => (or_false _).symm.to_iff, fun _ _ => (or_false _).symm.to_iff,
      fun _ _ => (or_false _).symm.to_iff⟩
    rw [walkNode, HashSet.contains_insert_iff, hnode]
    refine or_congr_right
      ⟨fun hname => .inl ⟨var, pos, fld, pos', fld', pos'', rfl, hname.symm⟩, ?_⟩
    rintro (⟨_, _, _, _, _, _, heq, rfl⟩ | ⟨child, hchild, var', _, _, _, _, _, hmem, rfl⟩)
    · cases heq
      rfl
    · obtain rfl := List.mem_singleton.mp hchild
      rcases mem_walked_iff.mp hmem with heq | ⟨child, hchild, hmem⟩
      · cases heq
      · obtain rfl := List.mem_singleton.mp hchild
        rcases mem_walked_iff.mp hmem with heq | ⟨child, hchild, -⟩
        · cases heq
        · cases hchild
  · have hnot : ∀ var pos fld pos' fld' pos'',
        field (field (localVar var pos) fld pos') fld' pos'' ≠ expr :=
      fun var pos fld pos' fld' pos'' heq => hfield ⟨var, pos, fld, pos', fld', pos'', heq⟩
    rw [walkNode_of_ne hnot]
    refine (hparts collector).congr (fun name => ?_) (fun _ => Iff.rfl) fun _ _ => Iff.rfl
    rw [hnode]
    refine ⟨.inr, fun h => h.resolve_left ?_⟩
    rintro ⟨var, pos, fld, pos', fld', pos'', heq, -⟩
    exact hnot var pos fld pos' fld' pos'' heq

theorem adds_walkExprs (exprs : List Expr) (collector : VarDependencyCollector) :
    Adds collector (exprs.foldl walkExpr collector)
      (fun name => ∃ expr ∈ exprs, Dereferences expr name) (fun _ => False) fun _ _ => False :=
  Adds.foldl exprs (fun expr _ => adds_walkExpr expr) collector

/-- An assignment records the ways from the variables of its source to those of its
target. -/
theorem adds_walkAssign (order : IterOrder) (target source : Expr) (kind : AssignKind)
    (collector : VarDependencyCollector) :
    Adds collector (collector.walkAssign order target source kind)
      (fun name => Dereferences target name ∨ Dereferences source name)
      (fun name => borrowingVariable target source kind = some name)
      fun u v => Mentions source u ∧ Mentions target v := by
  have hrecorded : Adds collector
      { collector with
        dependencies := (order.iter 0 (collectVariables target).keys).foldl
          (fun entries dependent => extendEntry entries dependent (collectVariables source))
          collector.dependencies
        dependents := (order.iter 1 (collectVariables source).keys).foldl
          (fun entries dependency => extendEntry entries dependency (collectVariables target))
          collector.dependents
        borrowingVariables :=
          match borrowingVariable target source kind with
          | some name => HashSet.insert collector.borrowingVariables name
          | none => collector.borrowingVariables }
      (fun _ => False) (fun name => borrowingVariable target source kind = some name)
      fun u v => Mentions source u ∧ Mentions target v := by
    refine ⟨fun _ => (or_false _).symm.to_iff, fun name => ?_, fun u v => ?_, fun u v => ?_⟩
    · cases borrowingVariable target source kind with
      | none => simp
      | some found =>
        simp only [HashSet.contains_insert_iff, Option.some.injEq]
        exact or_congr_right eq_comm
    · rw [mapEdge_foldl_extendEntry_iff, IterOrder.mem_iter, ← HashMap.contains_iff_mem_keys,
        contains_collectVariables_iff, contains_collectVariables_iff, and_comm]
    · rw [mapEdge_foldl_extendEntry_iff, IterOrder.mem_iter, ← HashMap.contains_iff_mem_keys,
        contains_collectVariables_iff, contains_collectVariables_iff]
  exact ((hrecorded.trans (adds_walkExpr target _)).trans (adds_walkExpr source _)).congr
    (fun _ => by simp) (fun _ => by simp) fun _ _ => by simp

/-- What is recorded for statements. -/
abbrev AddsStmts (before after : VarDependencyCollector) (stmts : List Stmt) : Prop :=
  Adds before after (fun name => ∃ expr ∈ Stmt.allExprs stmts, Dereferences expr name)
    (Borrows stmts) (FlowsInto stmts)

/-- A statement without nested ones that is not an assignment. -/
theorem addsStmts_of_ownExprs {stmt : Stmt} (hexprs : stmt.exprs = stmt.ownExprs)
    (hnested : stmt.nested = [stmt])
    (hassign : ∀ target source kind, .assign target source kind ≠ stmt)
    (collector : VarDependencyCollector) :
    AddsStmts collector (stmt.ownExprs.foldl walkExpr collector) [stmt] := by
  have hnone : ∀ target source kind, .assign target source kind ∉ Stmt.allNested [stmt] := by
    intro target source kind
    rw [Stmt.allNested, Stmt.allNested, hnested, List.append_nil, List.mem_singleton]
    exact hassign target source kind
  refine (adds_walkExprs stmt.ownExprs collector).congr (fun name => ?_) (fun name => ?_)
    fun u v => ?_
  · rw [Stmt.allExprs, Stmt.allExprs, hexprs, List.append_nil]
  · simp [Borrows, hnone]
  · simp [FlowsInto, hnone]

theorem AddsStmts.append {first second third : VarDependencyCollector} {stmts stmts' : List Stmt}
    (h : AddsStmts first second stmts) (h' : AddsStmts second third stmts') :
    AddsStmts first third (stmts ++ stmts') := by
  refine (h.trans h').congr (fun name => ?_) (fun name => ?_) fun u v => ?_
  · simp only [Stmt.mem_allExprs_iff, List.mem_append, or_and_right, exists_or]
  · simp only [Borrows, Stmt.allNested_append, List.mem_append, or_and_right, exists_or]
  · simp only [FlowsInto, Stmt.allNested_append, List.mem_append, or_and_right, exists_or]

/-- A statement with nested ones, after the walk of its own expression. -/
theorem addsStmts_nested {first second third : VarDependencyCollector} {stmt : Stmt} {own : Expr}
    {stmts : List Stmt} (h : Adds first second (Dereferences own) (fun _ => False) fun _ _ => False)
    (h' : AddsStmts second third stmts) (hexprs : stmt.exprs = own :: Stmt.allExprs stmts)
    (hnested : stmt.nested = stmt :: Stmt.allNested stmts)
    (hassign : ∀ target source kind, .assign target source kind ≠ stmt) :
    AddsStmts first third [stmt] := by
  have hmem : ∀ target source kind, .assign target source kind ∈ Stmt.allNested [stmt] ↔
      .assign target source kind ∈ Stmt.allNested stmts := fun target source kind => by
    rw [Stmt.allNested, Stmt.allNested, hnested, List.append_nil, List.mem_cons]
    exact or_iff_right (hassign target source kind)
  refine (h.trans h').congr (fun name => ?_) (fun name => ?_) fun u v => ?_
  · rw [Stmt.allExprs, Stmt.allExprs, hexprs, List.append_nil, List.exists_mem_cons_iff]
  · simp only [Borrows, hmem, false_or]
  · simp only [FlowsInto, hmem, false_or]

mutual

theorem adds_walkStmt (order : IterOrder) (collector : VarDependencyCollector) (stmt : Stmt) :
    AddsStmts collector (walkStmt order collector stmt) [stmt] := by
  cases stmt with
  | assign target source kind =>
    rw [walkStmt]
    refine (adds_walkAssign order target source kind collector).congr (fun name => ?_)
      (fun name => ?_) fun u v => ?_
    · simp [Stmt.allExprs, Stmt.exprs, Stmt.ownExprs]
    · simp [Borrows, Stmt.allNested, Stmt.nested]
    · simp [FlowsInto, Stmt.allNested, Stmt.nested]
  | packageMagicWand wand stmts label vars pos =>
    rw [walkStmt]
    exact addsStmts_nested (adds_walkExpr wand collector)
      (adds_walkStmts (order.call 0) _ stmts) rfl rfl fun _ _ _ h => nomatch h
  | ite guard thenStmts elseStmts =>
    rw [walkStmt]
    refine addsStmts_nested (adds_walkExpr guard collector)
      ((adds_walkStmts (order.call 0) _ thenStmts).append
        (adds_walkStmts (order.call 1) _ elseStmts)) ?_ ?_ fun _ _ _ h => nomatch h
    · rw [Stmt.exprs, Stmt.allExprs_append]
    · rw [Stmt.nested, Stmt.allNested_append]
  | _ =>
    rw [walkStmt]
    · refine addsStmts_of_ownExprs ?_ ?_ ?_ collector
      · rfl
      · rfl
      · nofun
    all_goals nofun

theorem adds_walkStmts (order : IterOrder) (collector : VarDependencyCollector)
    (stmts : List Stmt) : AddsStmts collector (walkStmts order collector stmts) stmts := by
  cases stmts with
  | nil =>
    exact (Adds.refl collector).congr (by simp [Stmt.allExprs])
      (by simp [Borrows, Stmt.allNested]) (by simp [FlowsInto, Stmt.allNested])
  | cons stmt stmts =>
    rw [walkStmts, ← List.singleton_append]
    exact (adds_walkStmt (order.call 0) collector stmt).append
      (adds_walkStmts (order.call 1) _ stmts)

end

/-- What is recorded for a method. -/
theorem adds_walkMethod (order : IterOrder) (method : CfgMethod) :
    Adds initial (walkMethod order method)
      (fun name => ∃ expr ∈ method.stmtExprs ++ method.guards, Dereferences expr name)
      (Borrows method.stmts) (FlowsInto method.stmts) := by
  refine ((adds_walkStmts order initial method.stmts).trans (adds_walkExprs method.guards _)).congr
    (fun name => ?_) (fun _ => (or_false _).to_iff) fun _ _ => (or_false _).to_iff
  simp only [CfgMethod.stmtExprs, List.mem_append, or_and_right, exists_or]

/-- The loops end, and find exactly what can be reached. -/
theorem exists_collect (order : IterOrder) (method : CfgMethod) :
    ∃ fuel collector, collect order fuel method = some collector ∧
      (∀ name, collector.dereferencedVariables.contains name = true ↔
        ∃ start, (walkMethod (order.call 0) method).dereferencedVariables.contains start = true ∧
          ReflTransGen (MapEdge (walkMethod (order.call 0) method).dependencies) start name) ∧
      ∀ name, collector.borrowingVariables.contains name = true ↔
        ∃ start, (walkMethod (order.call 0) method).borrowingVariables.contains start = true ∧
          ReflTransGen (MapEdge (walkMethod (order.call 0) method).dependents) start name := by
  let collected := walkMethod (order.call 0) method
  let fuel := collected.dependencies.entries.length + collected.dependents.entries.length + 1
  obtain ⟨derefs, hderefs⟩ : ∃ result, consumeEdges (order.call 1) fuel collected.dependencies
      collected.dereferencedVariables = some result :=
    exists_consumeEdges _ _ _ (by omega)
  obtain ⟨borrows, hborrows⟩ : ∃ result, consumeEdges (order.call 2) fuel collected.dependents
      collected.borrowingVariables = some result :=
    exists_consumeEdges _ _ _ (by omega)
  refine ⟨fuel, ⟨derefs.2, borrows.2, derefs.1, borrows.1⟩, ?_,
    contains_consumeEdges_iff hderefs, contains_consumeEdges_iff hborrows⟩
  rw [collect, computeDereferencedVariablesFixpoint, hderefs]
  change (computeBorrowingVariablesFixpoint _ _ _) = _
  rw [computeBorrowingVariablesFixpoint]
  exact congrArg (Option.map _) hborrows

end VarDependencyCollector

/-- A collection of what stands behind a vertex, by chains of edges in the other direction. -/
theorem reflTransGen_mapEdge_iff {entries : HashMap String (HashSet String)}
    {flows : String → String → Prop} (h : ∀ u v, MapEdge entries u v ↔ flows v u) {u v : String} :
    ReflTransGen (MapEdge entries) u v ↔ ReflTransGen flows v u := by
  rw [← reflTransGen_swap, show Function.swap (MapEdge entries) = flows from
    funext fun _ => funext fun _ => propext (h _ _)]

/-- The walk records the dereferenced and the borrowing variables and the flows of the
assignments.  The search ends.  It finds exactly what can be reached by the recorded edges, so
that a variable that is purified flows into no dereferenced variable, and no borrowing variable
flows into it. -/
theorem purifiedReferences_closed (method : CfgMethod) (order : IterOrder) :
    ∃ fuel collector purified,
      VarDependencyCollector.collect order fuel method = some collector ∧
      purifiedReferences order fuel method = some purified ∧
      Adds .initial
        (VarDependencyCollector.walkMethod (order.call 0) method)
        (fun name => ∃ expr ∈ method.stmtExprs ++ method.guards, Dereferences expr name)
        (Borrows method.stmts) (FlowsInto method.stmts) ∧
      (∀ name, collector.dereferencedVariables.contains name = true ↔ ∃ start,
        (VarDependencyCollector.walkMethod (order.call 0) method).dereferencedVariables.contains
          start = true ∧
        ReflTransGen (MapEdge
          (VarDependencyCollector.walkMethod (order.call 0) method).dependencies) start name) ∧
      (∀ name, collector.borrowingVariables.contains name = true ↔ ∃ start,
        (VarDependencyCollector.walkMethod (order.call 0) method).borrowingVariables.contains
          start = true ∧
        ReflTransGen (MapEdge
          (VarDependencyCollector.walkMethod (order.call 0) method).dependents) start name) ∧
      ∀ name, purified.contains name = true →
        (∀ name', ReflTransGen (FlowsInto method.stmts) name name' →
          collector.dereferencedVariables.contains name' = false) ∧
        ∀ name', ReflTransGen (FlowsInto method.stmts) name' name →
          collector.borrowingVariables.contains name' = false := by
  obtain ⟨fuel, collector, hcollect, hderefs, hborrows⟩ :=
    VarDependencyCollector.exists_collect order method
  have hadds := VarDependencyCollector.adds_walkMethod (order.call 0) method
  have hdependencies : ∀ u v, MapEdge
      (VarDependencyCollector.walkMethod (order.call 0) method).dependencies u v ↔
        FlowsInto method.stmts v u := fun u v => by
    rw [hadds.dependencies]
    simp [MapEdge, VarDependencyCollector.initial]
  have hdependents : ∀ u v, MapEdge
      (VarDependencyCollector.walkMethod (order.call 0) method).dependents u v ↔
        FlowsInto method.stmts u v := fun u v => by
    rw [hadds.dependents]
    simp [MapEdge, VarDependencyCollector.initial]
  obtain ⟨purified, hpurified, hkept⟩ : ∃ purified,
      purifiedReferences order fuel method = some purified ∧
        ∀ name, purified.contains name = true →
          collector.dereferencedVariables.contains name = false ∧
            collector.borrowingVariables.contains name = false := by
    rw [purifiedReferences]
    split
    · next hempty =>
        refine ⟨_, rfl, fun name hname => ?_⟩
        rw [HashMap.contains, List.isEmpty_iff.mp hempty] at hname
        cases hname
    · rw [hcollect]
      refine ⟨_, rfl, fun name hname => ?_⟩
      obtain ⟨entry, hentry, hkey⟩ := List.any_eq_true.mp hname
      obtain ⟨hentry, hborrow⟩ := List.mem_filter.mp hentry
      obtain ⟨-, hderef⟩ := List.mem_filter.mp hentry
      obtain rfl := beq_iff_eq.mp hkey
      exact ⟨by simpa using hderef, by simpa using hborrow⟩
  refine ⟨fuel, collector, purified, hcollect, hpurified, hadds, hderefs, hborrows,
    fun name hname => ⟨fun name' hflows => ?_, fun name' hflows => ?_⟩⟩
  · rw [Bool.eq_false_iff]
    intro hderef
    -- the way into a dereferenced variable, followed backwards
    obtain ⟨start, hstart, hpath⟩ := (hderefs name').mp hderef
    have hback := (reflTransGen_mapEdge_iff hdependencies).mpr hflows
    have hreached := (hderefs name).mpr ⟨start, hstart, hpath.trans hback⟩
    rw [(hkept name hname).1] at hreached
    cases hreached
  · rw [Bool.eq_false_iff]
    intro hborrow
    obtain ⟨start, hstart, hpath⟩ := (hborrows name').mp hborrow
    have hforth := ReflTransGen.mono (fun u v => (hdependents u v).mpr) _ _ hflows
    have hreached := (hborrows name).mpr ⟨start, hstart, hpath.trans hforth⟩
    rw [(hkept name hname).2] at hreached
    cases hreached

end Prusti.Encoder

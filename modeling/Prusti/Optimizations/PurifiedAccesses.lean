/-
The heap representation of purified variables: what is left of it after the pass,
and when the pass gets through.
-/
import Prusti.Optimizations.Purifier

namespace Prusti.Optimizations

open Prusti.Vir Prusti.Cfg Prusti.Lib Prusti.Encoder

variable {expr expr' node : Expr} {name : String} {args : List Expr} {perm : PermAmount}
  {index : Option EnumVariantIndex} {pos : Position} {ok : Bool}
  {walk : VarCollector → Option VarCollector}

section Accesses

variable (state : VarCollector)

/-- Has the variable the name of a purified variable? -/
def isNamed (var : LocalVar) : Bool :=
  state.allVars.keys.any fun other => state.isPurified other && other.name == var.name

def isNamedLocal : Expr → Bool
  | .localVar var _ => isNamed state var
  | _ => false

/-- Is the node a field access, a predicate access or an unfolding on a purified
variable? -/
def accesses : Expr → Bool
  | .field base _ _ | .predicateAccessPredicate _ base _ _ => isNamedLocal state base
  | .unfolding _ args _ _ _ _ => args.any (isNamedLocal state)
  | _ => false

def noAccess (expr : Expr) : Bool := expr.nodes.all fun node => !accesses state node

/-- Does the statement fold or unfold a purified variable? -/
def stmtAccesses : Stmt → Bool
  | .fold _ args _ _ _ | .unfold _ args _ _ => args.any (isNamedLocal state)
  | _ => false

def noAccessStmt (stmt : Stmt) : Bool :=
  stmt.exprs.all (noAccess state) && stmt.nested.all fun inner => !stmtAccesses state inner

def noAccessStmts (stmts : List Stmt) : Bool :=
  (Stmt.allExprs stmts).all (noAccess state) &&
    (Stmt.allNested stmts).all fun inner => !stmtAccesses state inner

/-- What the purifier replaces has to have a replacement. -/
def hasReplacement (expr : Expr) : Bool := (getReplacement state expr).isSome

/-- Does the purifier turn the expression into a purified variable? -/
def turnsInto : Expr → Bool
  | .localVar var _ => isNamed state var
  | .field base _ _ => isPure state base
  | .unfolding name [arg] base _ _ _ =>
    isPurifiablePredicate name && isPure state arg && turnsInto base
  | _ => false

/-- Are the purified variables at places where the purifier gets rid of them? -/
def cleanNode (node : Expr) (parts : List Bool) : Bool :=
  match node with
  | .localVar var _ => !state.isPurified var
  | .predicateAccessPredicate name arg _ _ =>
    if isPurifiablePredicate name && isPure state arg then hasReplacement state arg
    else parts.all id && !turnsInto state arg
  | .fieldAccessPredicate (.field (.localVar var _) _ _) _ _ =>
    state.isPurified var || parts.all id
  | .unfolding name [arg] _ _ _ _ =>
    parts.getLastD false && (isPurifiablePredicate name && isPure state arg ||
      noAccess state arg && !isNamedLocal state arg)
  | .unfolding _ _ _ _ _ _ => false
  | .field base _ _ =>
    if isPure state base then hasReplacement state base
    else parts.all id && !turnsInto state base
  | node => parts.all id && node.triggers.all fun trigger => trigger.all (noAccess state)

def clean (expr : Expr) : Bool := expr.para fun node parts _ => cleanNode state node parts

/-- The type of a replacement that is havocked has to be known. -/
def canHavoc (target : LocalVar) : Bool :=
  match state.replacements.get? target with
  | some replacement => (havocMethod replacement.typ).isSome
  | none => false

mutual

def cleanStmt : Stmt → Bool
  | .unfold name [arg] _ _ | .fold name [arg] _ _ _ =>
    if isPurifiablePredicate name && isPure state arg then hasReplacement state arg
    else clean state arg && !turnsInto state arg
  | .unfold _ _ _ _ | .fold _ _ _ _ _ => false
  | .methodCall _ args [target] =>
    args.all (clean state) && (!state.isPurified target || canHavoc state target)
  | .methodCall _ _ _ => false
  | .packageMagicWand wand stmts _ _ _ => clean state wand && cleanStmts stmts
  | .ite guard thenStmts elseStmts =>
    clean state guard && cleanStmts thenStmts && cleanStmts elseStmts
  | stmt => stmt.ownExprs.all (clean state)

def cleanStmts : List Stmt → Bool
  | [] => true
  | stmt :: stmts => cleanStmt stmt && cleanStmts stmts

end

/-- A purified variable has to have a replacement where it is declared. -/
def cleanVar (var : LocalVar) : Bool := !state.isPurified var || state.replacements.contains var

end Accesses

section Collectable

/-- A purifiable predicate that is unfolded has to have an argument. -/
def collectableArgs (name : String) (args : List Expr) : Bool :=
  !isPurifiablePredicate name || !args.isEmpty

def collectableNode : Expr → Bool
  | .unfolding name args _ _ _ _ => collectableArgs name args
  | _ => true

def collectable (expr : Expr) : Bool := expr.walked.all collectableNode

mutual

/-- The collector insists on method calls without arguments. -/
def collectableStmt : Stmt → Bool
  | .methodCall _ args _ => args.isEmpty
  | .fold name args _ _ _ | .unfold name args _ _ =>
    collectableArgs name args && args.all collectable
  | .packageMagicWand wand stmts _ _ _ => collectable wand && collectableStmts stmts
  | .ite guard thenStmts elseStmts =>
    collectable guard && collectableStmts thenStmts && collectableStmts elseStmts
  | stmt => stmt.ownExprs.all collectable

def collectableStmts : List Stmt → Bool
  | [] => true
  | stmt :: stmts => collectableStmt stmt && collectableStmts stmts

end

end Collectable

section Clean

variable {settings : BoundSettings} {state : VarCollector}

theorem noAccess_iff :
    noAccess state expr = true ↔ accesses state expr = false ∧
      (∀ child ∈ expr.children, noAccess state child = true) ∧
      ∀ trigger ∈ expr.triggers, ∀ part ∈ trigger, noAccess state part = true := by
  simp only [noAccess, List.all_eq_true, Bool.not_eq_true']
  constructor
  · intro h
    refine ⟨h expr (Expr.mem_nodes_iff.mpr (.inl rfl)), ?_, ?_⟩
    · intro child hchild node hnode
      exact h node (Expr.mem_nodes_iff.mpr (.inr (.inl ⟨child, hchild, hnode⟩)))
    · intro trigger htrigger part hpart node hnode
      exact h node (Expr.mem_nodes_iff.mpr (.inr (.inr ⟨trigger, htrigger, part, hpart, hnode⟩)))
  · rintro ⟨hself, hchildren, htriggers⟩ node hnode
    rcases Expr.mem_nodes_iff.mp hnode with
      rfl | ⟨child, hchild, hnode⟩ | ⟨trigger, htrigger, part, hpart, hnode⟩
    · exact hself
    · exact hchildren child hchild node hnode
    · exact htriggers trigger htrigger part hpart node hnode

theorem isPurified_congr {var other : LocalVar} (h : (var == other) = true) :
    state.isPurified var = state.isPurified other := by
  rw [VarCollector.isPurified, VarCollector.isPurified, HashMap.contains_congr _ h,
    HashMap.contains_congr _ h]

/-- A purified variable has its own name. -/
theorem isNamed_of_isPurified {var other : LocalVar} (h : state.isPurified var = true)
    (hname : other.name = var.name) : isNamed state other = true := by
  have hcontains : state.allVars.contains var = true := by
    rw [VarCollector.isPurified, Bool.and_eq_true] at h
    exact h.1
  obtain ⟨value, hget⟩ := (HashMap.contains_iff _ _).mp hcontains
  obtain ⟨key, hkey, heq⟩ := HashMap.exists_key_of_get? hget
  rw [isNamed, List.any_eq_true]
  refine ⟨key, hkey, ?_⟩
  rw [isPurified_congr heq, h, hname, ((LocalVar.beq_iff key var).mp heq).1]
  simp

theorem purifyExpr_eq (expr : Expr) :
    purifyExpr settings state expr = purifyNode settings state expr
        (expr.children.map (purifyExpr settings state)) :=
  Expr.para_eq _ expr

theorem clean_eq (expr : Expr) :
    clean state expr = cleanNode state expr (expr.children.map (clean state)) :=
  Expr.para_eq _ expr

/-- Replacements keep the names. -/
def KeepsNames (state : VarCollector) : Prop :=
  ∀ var replacement, state.replacements.get? var = some replacement → replacement.name = var.name

theorem isPure_eq_true_iff :
    isPure state expr = true ↔
      ∃ var pos, expr = .localVar var pos ∧ state.isPurified var = true := by
  constructor
  · intro h
    cases expr with
    | localVar var pos => exact ⟨var, pos, rfl, h⟩
    | _ => cases h
  · rintro ⟨var, pos, rfl, h⟩
    exact h

/-- The replacement of a purified variable has its name. -/
theorem isNamedLocal_of_getReplacement (hnames : KeepsNames state)
    (hpure : isPure state expr = true) (h : getReplacement state expr = some expr') :
    isNamedLocal state expr' = true := by
  obtain ⟨var, pos, rfl, hpurified⟩ := isPure_eq_true_iff.mp hpure
  obtain ⟨replacement, hget, rfl⟩ := Option.map_eq_some_iff.mp h
  exact isNamed_of_isPurified hpurified (hnames _ _ hget)

theorem noAccess_of_getReplacement (h : getReplacement state expr = some expr') :
    noAccess state expr' = true := by
  cases expr with
  | localVar var pos =>
    obtain ⟨replacement, -, rfl⟩ := Option.map_eq_some_iff.mp h
    rfl
  | _ => cases h

theorem noAccess_replacementBounds (h : getReplacement state expr = some expr') :
    noAccess state (replacementBounds settings expr') = true := by
  cases expr with
  | localVar var pos =>
    obtain ⟨replacement, -, rfl⟩ := Option.map_eq_some_iff.mp h
    rw [replacementBounds]
    split
    · rfl
    · split <;> rfl
  | _ => cases h

theorem exists_getReplacementBounds_iff (settings : BoundSettings) :
    (∃ expr', getReplacementBounds settings state expr = some expr' ∧
        noAccess state expr' = true) ↔ hasReplacement state expr = true := by
  rw [hasReplacement, Option.isSome_iff_exists, getReplacementBounds]
  constructor
  · rintro ⟨expr', h, -⟩
    obtain ⟨replacement, hreplacement, -⟩ := Option.map_eq_some_iff.mp h
    exact ⟨replacement, hreplacement⟩
  · rintro ⟨replacement, h⟩
    refine ⟨replacementBounds settings replacement, ?_, noAccess_replacementBounds h⟩
    rw [h]
    rfl

/-- The default fold of a node. -/
theorem defaultFold_eq_some_iff :
    defaultFold node (node.children.map (purifyExpr settings state)) = some expr' ↔
      ∃ parts, List.Forall₂ (fun child part =>
        purifyExpr settings state child = some part) node.children parts ∧
          node.rebuild parts = expr' := by
  rw [defaultFold, Option.map_eq_some_iff, List.mapM_map]
  simp only [mapM_eq_some_iff, Function.comp_apply, id_eq]

/-- What a node is folded to by default, and what is left in it. -/
theorem exists_defaultFold_iff (self : Bool)
    (ih : ∀ child ∈ node.children, (∃ part, purifyExpr settings state child = some part ∧
      noAccess state part = true) ↔ clean state child = true)
    (hself : ∀ parts, List.Forall₂ (fun child part =>
        purifyExpr settings state child = some part) node.children parts →
      accesses state (node.rebuild parts) = self) :
    (∃ expr', defaultFold node (node.children.map (purifyExpr settings state)) =
        some expr' ∧ noAccess state expr' = true) ↔
      (node.children.map (clean state)).all id = true ∧ self = false ∧
        (node.triggers.all fun trigger => trigger.all (noAccess state)) = true := by
  simp only [defaultFold_eq_some_iff, List.all_map, List.all_eq_true, Function.comp_apply, id_eq]
  constructor
  · rintro ⟨_, ⟨parts, hparts, rfl⟩, hno⟩
    rw [noAccess_iff, Expr.children_rebuild hparts.length_eq.symm,
      Expr.triggers_rebuild hparts.length_eq.symm, hself parts hparts] at hno
    refine ⟨fun child hchild => ?_, hno.1, hno.2.2⟩
    obtain ⟨part, hpart, heq⟩ := exists_of_forall₂_mem hparts hchild
    exact (ih child hchild).mp ⟨part, heq, hno.2.1 part hpart⟩
  · rintro ⟨hclean, hfalse, htriggers⟩
    obtain ⟨parts, hparts⟩ := exists_forall₂
      fun child hchild => (ih child hchild).mpr (hclean child hchild)
    have hfold := hparts.imp fun _ _ h => h.1
    refine ⟨_, ⟨parts, hfold, rfl⟩, ?_⟩
    rw [noAccess_iff, Expr.children_rebuild hfold.length_eq.symm,
      Expr.triggers_rebuild hfold.length_eq.symm, hself parts hfold]
    refine ⟨hfalse, fun part hpart => ?_, htriggers⟩
    obtain ⟨child, -, h⟩ := exists_of_forall₂_mem_right hparts hpart
    exact h.2

theorem isNamedLocal_eq_false (h : expr.children ≠ []) : isNamedLocal state expr = false := by
  cases expr with
  | localVar => exact absurd rfl h
  | _ => rfl

/-- The default fold makes no variable. -/
theorem isNamedLocal_rebuild {parts : List Expr} (h : parts.length = node.children.length) :
    isNamedLocal state (node.rebuild parts) = isNamedLocal state node := by
  by_cases hparts : parts = []
  · rw [hparts, List.length_nil] at h
    have hchildren := List.eq_nil_of_length_eq_zero h.symm
    have hsame := Expr.rebuild_children node
    rw [hchildren] at hsame
    rw [hparts, hsame]
  · have hchildren : node.children ≠ [] := by
      rintro hnil
      rw [hnil, List.length_nil] at h
      exact hparts (List.eq_nil_of_length_eq_zero h)
    rw [isNamedLocal_eq_false hchildren, isNamedLocal_eq_false]
    rw [Expr.children_rebuild h]
    exact hparts

theorem isNamedLocal_defaultFold
    (h : defaultFold node (node.children.map (purifyExpr settings state)) = some expr') :
    isNamedLocal state expr' = isNamedLocal state node := by
  obtain ⟨parts, hparts, rfl⟩ := defaultFold_eq_some_iff.mp h
  exact isNamedLocal_rebuild hparts.length_eq.symm

/-- Is the expression a field of a purified variable? -/
def isPureField (state : VarCollector) : Expr → Bool
  | .field base _ _ => isPure state base
  | _ => false

theorem purifyNode_fieldAccessPredicate (base : Expr) (perm : PermAmount)
    (pos : Position) (parts : List (Option Expr)) :
    purifyNode settings state (.fieldAccessPredicate base perm pos) parts =
      if isPureField state base then some (Expr.ofBool true)
      else defaultFold (.fieldAccessPredicate base perm pos) parts := by
  cases base with
  | field receiver fld pos' =>
    cases receiver with
    | localVar var pos'' => rfl
    | _ => rfl
  | _ => rfl

theorem cleanNode_fieldAccessPredicate (base : Expr) (perm : PermAmount)
    (pos : Position) (parts : List Bool) :
    cleanNode state (.fieldAccessPredicate base perm pos) parts =
      (isPureField state base || parts.all id) := by
  cases base with
  | field receiver fld pos' =>
    cases receiver with
    | localVar var pos'' => rfl
    | _ => exact Bool.and_true _
  | _ => exact Bool.and_true _

/-- The argument of an unfolding stays. -/
theorem purifyNode_unfolding_eq_some_iff {base : Expr} :
    purifyNode settings state (.unfolding name args base perm index pos)
        ((Expr.unfolding name args base perm index pos).children.map
          (purifyExpr settings state)) = some expr' ↔
      ∃ arg body, args = [arg] ∧ purifyExpr settings state base = some body ∧
        (if isPurifiablePredicate name && isPure state arg then body
          else .unfolding name [arg] body perm index pos) = expr' := by
  cases args with
  | nil => exact ⟨(nomatch ·), fun ⟨_, _, h, _⟩ => nomatch h⟩
  | cons arg others =>
    cases others with
    | cons _ _ => exact ⟨(nomatch ·), fun ⟨_, _, h, _⟩ => nomatch h⟩
    | nil =>
      change (if isPurifiablePredicate name && isPure state arg then
          purifyExpr settings state base
        else (purifyExpr settings state base).map fun body =>
          Expr.unfolding name [arg] body perm index pos) = some expr' ↔ _
      by_cases hpure : (isPurifiablePredicate name && isPure state arg) = true
      · rw [if_pos hpure]
        constructor
        · intro h
          exact ⟨arg, expr', rfl, h, if_pos hpure⟩
        · rintro ⟨other, body, heq, hbody, h⟩
          cases heq
          rw [if_pos hpure] at h
          rw [hbody, h]
      · rw [if_neg hpure, Option.map_eq_some_iff]
        constructor
        · rintro ⟨body, hbody, h⟩
          exact ⟨arg, body, rfl, hbody, (if_neg hpure).trans h⟩
        · rintro ⟨other, body, heq, hbody, h⟩
          cases heq
          rw [if_neg hpure] at h
          exact ⟨body, hbody, h⟩

theorem noAccess_unfolding_iff {arg body : Expr} :
    noAccess state (.unfolding name [arg] body perm index pos) = true ↔
      isNamedLocal state arg = false ∧ noAccess state arg = true ∧ noAccess state body = true := by
  rw [noAccess_iff]
  simp [accesses, Expr.children, Expr.triggers]

theorem cleanNode_unfolding_iff {base : Expr} :
    cleanNode state (.unfolding name args base perm index pos)
        ((Expr.unfolding name args base perm index pos).children.map (clean state)) =
        true ↔
      ∃ arg, args = [arg] ∧ clean state base = true ∧
        ((isPurifiablePredicate name && isPure state arg) = true ∨
          noAccess state arg = true ∧ isNamedLocal state arg = false) := by
  cases args with
  | nil => exact ⟨(nomatch ·), fun ⟨_, h, _⟩ => nomatch h⟩
  | cons arg others =>
    cases others with
    | cons _ _ => exact ⟨(nomatch ·), fun ⟨_, h, _⟩ => nomatch h⟩
    | nil => simp [cleanNode, Expr.children]

/-- What is turned into a purified variable. -/
theorem isNamedLocal_purifyExpr (hnames : KeepsNames state) (expr : Expr) :
    ∀ expr', purifyExpr settings state expr = some expr' →
      isNamedLocal state expr' = turnsInto state expr := by
  induction expr using Expr.children_induction with
  | h expr ih _ =>
  intro expr' h
  rw [purifyExpr_eq] at h
  cases expr with
  | localVar var pos =>
    rw [purifyNode] at h
    split at h
    · cases h
    · cases h
      rfl
  | predicateAccessPredicate name arg perm pos =>
    rw [purifyNode] at h
    split at h
    · obtain ⟨replacement, -, rfl⟩ := Option.map_eq_some_iff.mp h
      rw [replacementBounds]
      split
      · rfl
      · split <;> rfl
    · exact isNamedLocal_defaultFold h
  | fieldAccessPredicate base perm pos =>
    rw [purifyNode_fieldAccessPredicate] at h
    split at h
    · cases h
      rfl
    · exact isNamedLocal_defaultFold h
  | field base fld pos =>
    rw [purifyNode] at h
    split at h
    · next hpure =>
        rw [isNamedLocal_of_getReplacement hnames hpure h, turnsInto, hpure]
    · next hpure =>
        rw [isNamedLocal_defaultFold h, turnsInto, Bool.not_eq_true _ |>.mp hpure]
        rfl
  | unfolding name args base perm index pos =>
    obtain ⟨arg, body, rfl, hbody, heq⟩ := purifyNode_unfolding_eq_some_iff.mp h
    have hih := ih base (List.mem_append_right _ List.mem_cons_self) body hbody
    rw [turnsInto, ← hih]
    cases hpure : isPurifiablePredicate name && isPure state arg with
    | true =>
      rw [hpure, if_pos rfl] at heq
      rw [← heq, Bool.true_and]
    | false =>
      rw [hpure, if_neg Bool.false_ne_true] at heq
      rw [← heq, Bool.false_and]
      rfl
  | _ => exact isNamedLocal_defaultFold h

/-- The purifier gets through an expression, and no access is left, exactly when the
purified variables are at the right places. -/
theorem exists_purifyExpr_iff (settings : BoundSettings) (hnames : KeepsNames state) (expr : Expr) :
    (∃ expr', purifyExpr settings state expr = some expr' ∧
      noAccess state expr' = true) ↔ clean state expr = true := by
  induction expr using Expr.children_induction with
  | h expr ih _ =>
  have hdefault : (∀ parts, List.Forall₂ (fun child part =>
        purifyExpr settings state child = some part) expr.children parts →
      accesses state (expr.rebuild parts) = false) →
      ((∃ expr', defaultFold expr (expr.children.map (purifyExpr settings state)) =
        some expr' ∧ noAccess state expr' = true) ↔
      ((expr.children.map (clean state)).all id &&
        expr.triggers.all fun trigger => trigger.all (noAccess state)) = true) := by
    intro hself
    rw [exists_defaultFold_iff false ih hself, Bool.and_eq_true, eq_self, true_and]
  have hreceiver : ∀ base, expr.children = [base] →
      (∀ part, accesses state (expr.rebuild [part]) = isNamedLocal state part) →
      ∀ parts, List.Forall₂ (fun child part =>
          purifyExpr settings state child = some part) expr.children parts →
        accesses state (expr.rebuild parts) = turnsInto state base := by
    intro base hchildren hself parts hparts
    rw [hchildren] at hparts
    obtain ⟨part, others, hpart, hnil, rfl⟩ := List.forall₂_cons_left_iff.mp hparts
    rw [List.forall₂_nil_left_iff.mp hnil, hself, isNamedLocal_purifyExpr hnames base part hpart]
  rw [purifyExpr_eq, clean_eq]
  cases expr with
  | localVar var pos =>
    rw [purifyNode, cleanNode]
    cases state.isPurified var with
    | true =>
      constructor
      · rintro ⟨_, h, _⟩
        cases h
      · intro h
        cases h
    | false => exact ⟨fun _ => rfl, fun _ => ⟨_, rfl, rfl⟩⟩
  | predicateAccessPredicate name arg perm pos =>
    rw [purifyNode, cleanNode]
    split
    · exact exists_getReplacementBounds_iff settings
    · rw [exists_defaultFold_iff (turnsInto state arg) ih (hreceiver arg rfl fun _ => rfl)]
      simp [Expr.triggers]
  | field base fld pos =>
    rw [purifyNode, cleanNode]
    split
    · rw [hasReplacement, Option.isSome_iff_exists]
      constructor
      · rintro ⟨expr', h, -⟩
        exact ⟨expr', h⟩
      · rintro ⟨expr', h⟩
        exact ⟨expr', h, noAccess_of_getReplacement h⟩
    · rw [exists_defaultFold_iff (turnsInto state base) ih (hreceiver base rfl fun _ => rfl)]
      simp [Expr.triggers]
  | fieldAccessPredicate base perm pos =>
    rw [purifyNode_fieldAccessPredicate, cleanNode_fieldAccessPredicate]
    cases isPureField state base with
    | true => exact ⟨fun _ => rfl, fun _ => ⟨_, rfl, rfl⟩⟩
    | false =>
      rw [Bool.false_or]
      refine (hdefault ?_).trans (by simp [Expr.triggers])
      intro parts hparts
      obtain ⟨part, rfl⟩ := List.length_eq_one_iff.mp hparts.length_eq.symm
      rfl
  | unfolding name args base perm index pos =>
    have hbase := ih base (List.mem_append_right _ List.mem_cons_self)
    simp only [purifyNode_unfolding_eq_some_iff, cleanNode_unfolding_iff]
    constructor
    · rintro ⟨_, ⟨arg, body, rfl, hbody, rfl⟩, hno⟩
      refine ⟨arg, rfl, ?_⟩
      by_cases hpure : (isPurifiablePredicate name && isPure state arg) = true
      · rw [if_pos hpure] at hno
        exact ⟨hbase.mp ⟨body, hbody, hno⟩, .inl hpure⟩
      · rw [if_neg hpure, noAccess_unfolding_iff] at hno
        exact ⟨hbase.mp ⟨body, hbody, hno.2.2⟩, .inr ⟨hno.2.1, hno.1⟩⟩
    · rintro ⟨arg, rfl, hclean, hor⟩
      obtain ⟨body, hbody, hno⟩ := hbase.mpr hclean
      refine ⟨_, ⟨arg, body, rfl, hbody, rfl⟩, ?_⟩
      by_cases hpure : (isPurifiablePredicate name && isPure state arg) = true
      · rw [if_pos hpure]
        exact hno
      · rw [if_neg hpure, noAccess_unfolding_iff]
        obtain ⟨harg, hnamed⟩ := hor.resolve_left hpure
        exact ⟨hnamed, harg, hno⟩
  | const | seq | funcApp | domainFuncApp => exact hdefault fun parts _ => rfl
  | variant | addrOf | labelledOld | unaryOp | snapApp | forAll | exist =>
    apply hdefault
    intro parts hparts
    obtain ⟨part, rfl⟩ := List.length_eq_one_iff.mp hparts.length_eq.symm
    rfl
  | magicWand | binOp | containerOp | letExpr | inhaleExhale | downcast =>
    apply hdefault
    intro parts hparts
    obtain ⟨left, right, rfl⟩ := List.length_eq_two.mp hparts.length_eq.symm
    rfl
  | cond =>
    apply hdefault
    intro parts hparts
    obtain ⟨first, second, third, rfl⟩ := List.length_eq_three.mp hparts.length_eq.symm
    rfl

theorem exists_map_iff {f : Expr → Stmt} (hnames : KeepsNames state)
    (hf : ∀ part, noAccessStmt state (f part) = noAccess state part) :
    (∃ stmt, (purifyExpr settings state expr).map f = some stmt ∧
      noAccessStmt state stmt = true) ↔ clean state expr = true := by
  rw [← exists_purifyExpr_iff settings hnames]
  constructor
  · rintro ⟨stmt, h, hno⟩
    obtain ⟨part, hpart, rfl⟩ := Option.map_eq_some_iff.mp h
    exact ⟨part, hpart, (hf part).symm.trans hno⟩
  · rintro ⟨part, hpart, hno⟩
    exact ⟨f part, by rw [hpart]; rfl, (hf part).trans hno⟩

theorem exists_bind_iff {left right : Expr} {f : Expr → Expr → Stmt}
    (hnames : KeepsNames state) (hf : ∀ part part', noAccessStmt state (f part part') =
      (noAccess state part && noAccess state part')) :
    (∃ stmt, ((purifyExpr settings state left).bind fun part =>
        (purifyExpr settings state right).bind fun part' => some (f part part')) =
          some stmt ∧ noAccessStmt state stmt = true) ↔
      (clean state left && clean state right) = true := by
  rw [Bool.and_eq_true, ← exists_purifyExpr_iff settings hnames,
    ← exists_purifyExpr_iff settings hnames]
  constructor
  · rintro ⟨stmt, h, hno⟩
    obtain ⟨part, hpart, h⟩ := Option.bind_eq_some_iff.mp h
    obtain ⟨part', hpart', h⟩ := Option.bind_eq_some_iff.mp h
    cases h
    rw [hf, Bool.and_eq_true] at hno
    exact ⟨⟨part, hpart, hno.1⟩, ⟨part', hpart', hno.2⟩⟩
  · rintro ⟨⟨part, hpart, hno⟩, ⟨part', hpart', hno'⟩⟩
    refine ⟨f part part', by rw [hpart, hpart']; rfl, ?_⟩
    rw [hf, hno, hno']
    rfl

/-- Folding and unfolding a variable. -/
theorem exists_fold_iff {arg : Expr} {f g : Expr → Stmt} (hnames : KeepsNames state)
    (hf : ∀ bounds, noAccessStmt state (f bounds) = noAccess state bounds)
    (hg : ∀ part, noAccessStmt state (g part) = (noAccess state part && !isNamedLocal state part)) :
    (∃ stmt, (if isPurifiablePredicate name && isPure state arg then
          (getReplacementBounds settings state arg).map f
        else (purifyExpr settings state arg).map g) = some stmt ∧
        noAccessStmt state stmt = true) ↔
      (if isPurifiablePredicate name && isPure state arg then hasReplacement state arg
        else clean state arg && !turnsInto state arg) = true := by
  split
  · rw [← exists_getReplacementBounds_iff settings]
    constructor
    · rintro ⟨stmt, h, hno⟩
      obtain ⟨bounds, hbounds, rfl⟩ := Option.map_eq_some_iff.mp h
      exact ⟨bounds, hbounds, (hf bounds).symm.trans hno⟩
    · rintro ⟨bounds, hbounds, hno⟩
      exact ⟨f bounds, by rw [hbounds]; rfl, (hf bounds).trans hno⟩
  · rw [Bool.and_eq_true, ← exists_purifyExpr_iff settings hnames]
    constructor
    · rintro ⟨stmt, h, hno⟩
      obtain ⟨part, hpart, rfl⟩ := Option.map_eq_some_iff.mp h
      rw [hg, Bool.and_eq_true, isNamedLocal_purifyExpr hnames arg part hpart] at hno
      exact ⟨⟨part, hpart, hno.1⟩, hno.2⟩
    · rintro ⟨⟨part, hpart, hno⟩, hturns⟩
      refine ⟨g part, by rw [hpart]; rfl, ?_⟩
      rw [hg, hno, isNamedLocal_purifyExpr hnames arg part hpart, hturns]
      rfl

theorem exists_mapM_iff (settings : BoundSettings) (hnames : KeepsNames state) :
    (∃ parts, args.mapM (purifyExpr settings state) = some parts ∧
      parts.all (noAccess state) = true) ↔ args.all (clean state) = true := by
  simp only [mapM_eq_some_iff, List.all_eq_true]
  constructor
  · rintro ⟨parts, hparts, hno⟩ arg harg
    obtain ⟨part, hpart, heq⟩ := exists_of_forall₂_mem hparts harg
    exact (exists_purifyExpr_iff _ hnames arg).mp ⟨part, heq, hno part hpart⟩
  · intro hclean
    obtain ⟨parts, hparts⟩ := exists_forall₂ fun arg harg =>
      (exists_purifyExpr_iff settings hnames arg).mpr (hclean arg harg)
    refine ⟨parts, hparts.imp fun _ _ h => h.1, fun part hpart => ?_⟩
    obtain ⟨arg, -, h⟩ := exists_of_forall₂_mem_right hparts hpart
    exact h.2

theorem exists_methodCall_iff {target : LocalVar} (hnames : KeepsNames state) :
    (∃ stmt, purifyStmt settings state (.methodCall name args [target]) = some stmt ∧
        noAccessStmt state stmt = true) ↔
      (args.all (clean state) && (!state.isPurified target || canHavoc state target)) = true := by
  have hcall : ∀ name (parts : List Expr) targets,
      noAccessStmt state (.methodCall name parts targets) = parts.all (noAccess state) := by
    intro name parts targets
    exact Bool.and_true _
  rw [purifyStmt, Bool.and_eq_true, ← exists_mapM_iff settings hnames]
  split
  · next hpure =>
      rw [hpure, Bool.not_true, Bool.false_or, canHavoc]
      cases state.replacements.get? target with
      | none => exact ⟨fun ⟨_, h, _⟩ => (nomatch h), fun ⟨_, h⟩ => (nomatch h)⟩
      | some replacement =>
        simp only [Option.bind_eq_bind, Option.bind_some, Option.bind_eq_some_iff,
          Option.isSome_iff_exists]
        constructor
        · rintro ⟨stmt, ⟨havoc, hhavoc, parts, hparts, heq⟩, hno⟩
          cases heq
          exact ⟨⟨parts, hparts, (hcall _ _ _).symm.trans hno⟩, havoc, hhavoc⟩
        · rintro ⟨⟨parts, hparts, hno⟩, havoc, hhavoc⟩
          exact ⟨_, ⟨havoc, hhavoc, parts, hparts, rfl⟩, (hcall _ _ _).trans hno⟩
  · next hpure =>
      rw [Bool.not_eq_true] at hpure
      simp only [hpure, Bool.not_false, Bool.true_or, and_true, Option.map_eq_some_iff]
      constructor
      · rintro ⟨stmt, ⟨parts, hparts, rfl⟩, hno⟩
        exact ⟨parts, hparts, (hcall _ _ _).symm.trans hno⟩
      · rintro ⟨parts, hparts, hno⟩
        exact ⟨_, ⟨parts, hparts, rfl⟩, (hcall _ _ _).trans hno⟩

theorem noAccessStmts_cons (stmt : Stmt) (stmts : List Stmt) :
    noAccessStmts state (stmt :: stmts) =
      (noAccessStmt state stmt && noAccessStmts state stmts) := by
  rw [noAccessStmts, noAccessStmt, noAccessStmts, Stmt.allExprs, Stmt.allNested,
    List.all_append, List.all_append]
  simp only [Bool.and_assoc, Bool.and_left_comm]

theorem noAccessStmt_package (wand : Expr) (stmts : List Stmt) (label : String)
    (vars : List LocalVar) (pos : Position) :
    noAccessStmt state (.packageMagicWand wand stmts label vars pos) =
      (noAccess state wand && noAccessStmts state stmts) := by
  rw [noAccessStmt, noAccessStmts, Stmt.exprs, Stmt.nested, List.all_cons, List.all_cons]
  simp [stmtAccesses, Bool.and_assoc]

theorem noAccessStmt_ite (guard : Expr) (thenStmts elseStmts : List Stmt) :
    noAccessStmt state (.ite guard thenStmts elseStmts) =
      (noAccess state guard && noAccessStmts state thenStmts && noAccessStmts state elseStmts) := by
  rw [noAccessStmt, noAccessStmts, noAccessStmts, Stmt.exprs, Stmt.nested, List.all_cons,
    List.all_cons, List.all_append, List.all_append]
  simp only [stmtAccesses, Bool.not_false, Bool.true_and, Bool.and_assoc, Bool.and_left_comm]

mutual

/-- The purifier gets through a statement, and no access is left. -/
theorem exists_purifyStmt_iff (settings : BoundSettings) (hnames : KeepsNames state) (stmt : Stmt) :
    (∃ stmt', purifyStmt settings state stmt = some stmt' ∧
      noAccessStmt state stmt' = true) ↔ cleanStmt state stmt = true := by
  have hone : ∀ expr, [expr].all (clean state) = clean state expr := by
    intro expr
    exact Bool.and_true _
  have htwo : ∀ left right, [left, right].all (clean state) =
      (clean state left && clean state right) := by
    intro left right
    simp
  cases stmt with
  | comment | label | beginFrame | endFrame | expireBorrows =>
    rw [purifyStmt]
    exact ⟨fun _ => rfl, fun _ => ⟨_, rfl, rfl⟩⟩
  | inhale | exhale | assert | obtain | applyMagicWand | downcast =>
    rw [purifyStmt, cleanStmt, Stmt.ownExprs, hone]
    · apply exists_map_iff hnames
      intro part
      simp [noAccessStmt, Stmt.exprs, Stmt.ownExprs, Stmt.nested, stmtAccesses]
    all_goals simp
  | assign | transferPerm =>
    rw [purifyStmt, cleanStmt, Stmt.ownExprs, htwo]
    · apply exists_bind_iff hnames
      intro part part'
      simp [noAccessStmt, Stmt.exprs, Stmt.ownExprs, Stmt.nested, stmtAccesses]
    all_goals simp
  | methodCall name args targets =>
    match targets with
    | [target] => exact exists_methodCall_iff hnames
    | [] | _ :: _ :: _ => exact ⟨fun ⟨_, h, _⟩ => (nomatch h), (nomatch ·)⟩
  | fold name args perm index pos =>
    match args with
    | [arg] =>
      rw [purifyStmt, cleanStmt]
      apply exists_fold_iff hnames <;> intro part <;>
        simp [noAccessStmt, Stmt.exprs, Stmt.ownExprs, Stmt.nested, stmtAccesses]
    | [] | _ :: _ :: _ => exact ⟨fun ⟨_, h, _⟩ => (nomatch h), (nomatch ·)⟩
  | unfold name args perm index =>
    match args with
    | [arg] =>
      rw [purifyStmt, cleanStmt]
      apply exists_fold_iff hnames <;> intro part <;>
        simp [noAccessStmt, Stmt.exprs, Stmt.ownExprs, Stmt.nested, stmtAccesses]
    | [] | _ :: _ :: _ => exact ⟨fun ⟨_, h, _⟩ => (nomatch h), (nomatch ·)⟩
  | packageMagicWand wand stmts label vars pos =>
    rw [purifyStmt, cleanStmt, Bool.and_eq_true, ← exists_purifyExpr_iff settings hnames,
      ← exists_purifyStmts_iff settings hnames stmts]
    simp only [Option.bind_eq_bind, Option.bind_eq_some_iff, Option.some.injEq]
    constructor
    · rintro ⟨_, ⟨wand', hwand, stmts', hstmts, rfl⟩, hno⟩
      rw [noAccessStmt_package, Bool.and_eq_true] at hno
      exact ⟨⟨wand', hwand, hno.1⟩, stmts', hstmts, hno.2⟩
    · rintro ⟨⟨wand', hwand, hno⟩, stmts', hstmts, hno'⟩
      refine ⟨_, ⟨wand', hwand, stmts', hstmts, rfl⟩, ?_⟩
      rw [noAccessStmt_package, hno, hno']
      rfl
  | ite guard thenStmts elseStmts =>
    rw [purifyStmt, cleanStmt, Bool.and_eq_true, Bool.and_eq_true,
      ← exists_purifyExpr_iff settings hnames, ← exists_purifyStmts_iff settings hnames thenStmts,
      ← exists_purifyStmts_iff settings hnames elseStmts]
    simp only [Option.bind_eq_bind, Option.bind_eq_some_iff, Option.some.injEq]
    constructor
    · rintro ⟨_, ⟨guard', hguard, then', hthen, else', helse, rfl⟩, hno⟩
      rw [noAccessStmt_ite, Bool.and_eq_true, Bool.and_eq_true] at hno
      exact ⟨⟨⟨guard', hguard, hno.1.1⟩, then', hthen, hno.1.2⟩, else', helse, hno.2⟩
    · rintro ⟨⟨⟨guard', hguard, hno⟩, then', hthen, hno'⟩, else', helse, hno''⟩
      refine ⟨_, ⟨guard', hguard, then', hthen, else', helse, rfl⟩, ?_⟩
      rw [noAccessStmt_ite, hno, hno', hno'']
      rfl

theorem exists_purifyStmts_iff (settings : BoundSettings) (hnames : KeepsNames state)
    (stmts : List Stmt) :
    (∃ stmts', purifyStmts settings state stmts = some stmts' ∧
      noAccessStmts state stmts' = true) ↔ cleanStmts state stmts = true := by
  cases stmts with
  | nil => exact ⟨fun _ => rfl, fun _ => ⟨_, rfl, rfl⟩⟩
  | cons stmt stmts =>
    rw [purifyStmts, cleanStmts, Bool.and_eq_true, ← exists_purifyStmt_iff settings hnames stmt,
      ← exists_purifyStmts_iff settings hnames stmts]
    simp only [Option.bind_eq_bind, Option.bind_eq_some_iff, Option.some.injEq]
    constructor
    · rintro ⟨_, ⟨stmt', hstmt, stmts', hstmts, rfl⟩, hno⟩
      rw [noAccessStmts_cons, Bool.and_eq_true] at hno
      exact ⟨⟨stmt', hstmt, hno.1⟩, stmts', hstmts, hno.2⟩
    · rintro ⟨⟨stmt', hstmt, hno⟩, stmts', hstmts, hno'⟩
      refine ⟨_, ⟨stmt', hstmt, stmts', hstmts, rfl⟩, ?_⟩
      rw [noAccessStmts_cons, hno, hno']
      rfl

end

end Clean

section Collector

variable {state : VarCollector}

/-- A part of the collector: it fails unless `ok`, and it keeps the names. -/
def Collects (ok : Bool) (walk : VarCollector → Option VarCollector) : Prop :=
  ∀ state, KeepsNames state →
    (ok = true → ∃ state', walk state = some state' ∧ KeepsNames state') ∧
      (ok = false → walk state = none)

theorem collects_pure {f : VarCollector → VarCollector}
    (hf : ∀ state, KeepsNames state → KeepsNames (f state)) :
    Collects true fun state => some (f state) := by
  intro state hnames
  exact ⟨fun _ => ⟨f state, rfl, hf state hnames⟩, fun h => by cases h⟩

theorem Collects.bind {ok' : Bool} {walk' : VarCollector → Option VarCollector}
    (h : Collects ok walk) (h' : Collects ok' walk') :
    Collects (ok && ok') fun state => (walk state).bind walk' := by
  intro state hnames
  cases ok with
  | false =>
    refine ⟨(nomatch ·), fun _ => ?_⟩
    simp only [(h state hnames).2 rfl, Option.bind_none]
  | true =>
    obtain ⟨state', heq, hnames'⟩ := (h state hnames).1 rfl
    simp only [heq, Option.bind_some]
    exact h' state' hnames'

/-- Prepare the state. -/
theorem Collects.comp (h : Collects ok walk) {f : VarCollector → VarCollector}
    (hf : ∀ state, KeepsNames state → KeepsNames (f state)) :
    Collects ok fun state => walk (f state) := by
  intro state hnames
  exact h (f state) (hf state hnames)

theorem Collects.ite {walk' : VarCollector → Option VarCollector} (h : Collects ok walk)
    (h' : Collects ok walk') {p : Prop} [Decidable p] :
    Collects ok fun state => if p then walk state else walk' state := by
  by_cases hp : p
  · simp only [hp, if_true]
    exact h
  · simp only [hp, if_false]
    exact h'

theorem KeepsNames.checkLocalVar (h : KeepsNames state) (isPureContext : Bool) (var : LocalVar) :
    KeepsNames (state.checkLocalVar isPureContext var) :=
  h

theorem KeepsNames.checkLocalVars (h : KeepsNames state) (isPureContext : Bool)
    (vars : List LocalVar) :
    KeepsNames (state.checkLocalVars isPureContext vars) := by
  induction vars generalizing state with
  | nil => exact h
  | cons var vars ih => exact ih (h.checkLocalVar isPureContext var)

theorem KeepsNames.forget (h : KeepsNames state) (vars : List LocalVar) :
    KeepsNames (state.forget vars) :=
  h

theorem KeepsNames.insertReplacement (h : KeepsNames state) (var : LocalVar) (typ : Typ) :
    KeepsNames (state.insertReplacement var typ) := by
  intro other replacement hget
  change (state.replacements.insert var { var with typ := typ }).get? other = _ at hget
  rw [HashMap.get?_insert] at hget
  split at hget
  · next heq =>
      cases hget
      exact ((LocalVar.beq_iff var other).mp heq).1
  · exact h other replacement hget

theorem collects_walkParts {exprs : List Expr} (h : ∀ expr ∈ exprs, ∀ isPureContext,
      Collects (collectable expr) (walkExpr expr isPureContext)) (isPureContext : Bool) :
    Collects (exprs.all collectable) (walkParts (exprs.map walkExpr) isPureContext) := by
  induction exprs with
  | nil => exact collects_pure fun _ hnames => hnames
  | cons expr exprs ih =>
    rw [List.all_cons]
    exact (h expr List.mem_cons_self isPureContext).bind
      (ih fun other hother => h other (List.mem_cons_of_mem _ hother))

theorem collectable_eq (expr : Expr) :
    collectable expr = (collectableNode expr && expr.children.all collectable) := by
  rw [collectable, Expr.walked_eq, List.all_cons, List.all_flatten, List.all_map]
  rfl

theorem collects_argsContext {walk : Bool → VarCollector → Option VarCollector}
    (h : ∀ isPureContext, Collects ok (walk isPureContext)) (name : String) (args : List Expr)
    (isPureContext : Bool) :
    Collects (collectableArgs name args && ok) fun state =>
      (argsContext name args isPureContext).bind fun context => walk context state := by
  unfold collectableArgs argsContext
  cases isPurifiablePredicate name with
  | false => exact h isPureContext
  | true =>
    cases args with
    | nil => exact fun state _ => ⟨(nomatch ·), fun _ => rfl⟩
    | cons arg args =>
      cases arg with
      | localVar => exact h true
      | _ => exact h isPureContext

/-- The collector gets through an expression unless a purifiable predicate is unfolded
without an argument. -/
theorem collects_walkExpr (expr : Expr) :
    ∀ isPureContext, Collects (collectable expr) (walkExpr expr isPureContext) := by
  induction expr using Expr.children_induction with
  | h expr ih _ =>
  intro isPureContext
  have hparts := collects_walkParts ih
  have heq : walkExpr expr = walkNode expr (expr.children.map walkExpr) := Expr.para_eq _ expr
  rw [heq, collectable_eq]
  cases expr with
  | localVar var pos =>
    exact collects_pure fun state hnames => hnames.checkLocalVar isPureContext var
  | predicateAccessPredicate name arg perm pos =>
    cases arg with
    | localVar var pos' =>
      exact ((hparts true).comp fun state hnames =>
        hnames.insertReplacement var .int).ite (hparts isPureContext)
    | _ => exact hparts isPureContext
  | field base fld pos =>
    cases base with
    | localVar var pos' =>
      exact ((hparts true).comp fun state hnames =>
        hnames.insertReplacement var fld.typ).ite (hparts isPureContext)
    | _ => exact hparts _
  | unfolding name args base perm index pos =>
    exact collects_argsContext hparts name args isPureContext
  | letExpr var expr body pos =>
    have h := (hparts isPureContext).bind (collects_pure fun state hnames => hnames.forget [var])
    rw [Bool.and_true] at h
    exact h
  | forAll vars triggers body pos =>
    have h := (hparts isPureContext).bind (collects_pure fun state hnames => hnames.forget vars)
    rw [Bool.and_true] at h
    exact h
  | exist vars triggers body pos =>
    exact (hparts isPureContext).comp fun state hnames =>
      hnames.checkLocalVars isPureContext vars
  | funcApp name args formalArgs typ pos =>
    have h := (hparts isPureContext).bind
      (collects_pure fun state hnames => hnames.checkLocalVars isPureContext formalArgs)
    rw [Bool.and_true] at h
    exact h
  | domainFuncApp func args pos =>
    have h := (hparts isPureContext).bind (collects_pure fun state hnames =>
      hnames.checkLocalVars isPureContext func.formalArgs)
    rw [Bool.and_true] at h
    exact h
  | _ => exact hparts isPureContext

theorem collects_walkExprs (exprs : List Expr) (isPureContext : Bool) :
    Collects (exprs.all collectable) (walkExprs exprs isPureContext) :=
  collects_walkParts (fun expr _ => collects_walkExpr expr) isPureContext

mutual

theorem collects_walkStmt (stmt : Stmt) :
    Collects (collectableStmt stmt) fun state => walkStmt state stmt := by
  cases stmt with
  | methodCall name args targets =>
    simp only [walkStmt, collectableStmt]
    cases args with
    | nil => exact collects_pure fun state hnames => hnames.checkLocalVars _ targets
    | cons => exact fun state _ => ⟨(nomatch ·), fun _ => rfl⟩
  | fold name args perm index pos =>
    simp only [walkStmt, collectableStmt]
    exact collects_argsContext (collects_walkExprs args) name args false
  | unfold name args perm index =>
    simp only [walkStmt, collectableStmt]
    exact collects_argsContext (collects_walkExprs args) name args false
  | packageMagicWand wand stmts label vars pos =>
    simp only [walkStmt, collectableStmt]
    exact (collects_walkExpr wand false).bind ((collects_walkStmts stmts).comp
      fun state hnames => hnames.checkLocalVars false vars)
  | ite guard thenStmts elseStmts =>
    simp only [walkStmt, collectableStmt, Bool.and_assoc]
    exact (collects_walkExpr guard false).bind
      ((collects_walkStmts thenStmts).bind (collects_walkStmts elseStmts))
  | _ =>
    simp only [walkStmt, collectableStmt]
    exact collects_walkExprs _ false

theorem collects_walkStmts (stmts : List Stmt) :
    Collects (collectableStmts stmts) fun state => walkStmts state stmts := by
  cases stmts with
  | nil => exact collects_pure fun state hnames => hnames
  | cons stmt stmts =>
    simp only [walkStmts, collectableStmts]
    exact (collects_walkStmt stmt).bind (collects_walkStmts stmts)

end

/-- The collector gets through a method exactly when the calls have no arguments and
the purifiable predicates have one. -/
theorem exists_collectVars_iff (method : CfgMethod) :
    (∃ state, collectVars method = some state) ↔
      (collectableStmts method.stmts && method.guards.all collectable) = true := by
  have hnames : KeepsNames .initial := by
    intro var replacement hget
    cases hget
  have h := ((collects_walkStmts method.stmts).bind
    (collects_walkExprs method.guards false)) .initial hnames
  constructor
  · rintro ⟨state, hstate⟩
    by_contra hfalse
    have hnone := h.2 (Bool.not_eq_true _ |>.mp hfalse)
    cases hnone.symm.trans hstate
  · intro hok
    obtain ⟨state, hstate, -⟩ := h.1 hok
    exact ⟨state, hstate⟩

theorem keepsNames_of_collectVars {method : CfgMethod} (hstate : collectVars method = some state) :
    KeepsNames state := by
  have hok := (exists_collectVars_iff method).mp ⟨state, hstate⟩
  have hnames : KeepsNames .initial := by
    intro var replacement hget
    cases hget
  obtain ⟨state', hstate', hnames'⟩ := (((collects_walkStmts method.stmts).bind
    (collects_walkExprs method.guards false)) .initial hnames).1 hok
  cases hstate'.symm.trans hstate
  exact hnames'

end Collector

section Method

variable {settings : BoundSettings} {state : VarCollector}

theorem noAccessStmts_append (first second : List Stmt) :
    noAccessStmts state (first ++ second) =
      (noAccessStmts state first && noAccessStmts state second) := by
  induction first with
  | nil => rfl
  | cons stmt stmts ih =>
    rw [List.cons_append, noAccessStmts_cons, ih, noAccessStmts_cons, Bool.and_assoc]

theorem cleanStmts_append (first second : List Stmt) :
    cleanStmts state (first ++ second) = (cleanStmts state first && cleanStmts state second) := by
  induction first with
  | nil => rfl
  | cons stmt stmts ih => rw [List.cons_append, cleanStmts, ih, cleanStmts, Bool.and_assoc]

theorem purifyBlock_eq_some_iff {block block' : CfgBlock} :
    purifyBlock settings state block = some block' ↔
      purifyStmts settings state block.stmts = some block'.stmts ∧
        block'.successor = block.successor := by
  obtain ⟨stmts, successor⟩ := block
  obtain ⟨stmts', successor'⟩ := block'
  simp [purifyBlock, eq_comm]

/-- The purifier gets through the blocks, and no access is left in their statements. -/
theorem exists_purifyBlocks_iff (settings : BoundSettings) (hnames : KeepsNames state)
    (blocks : List CfgBlock) :
    (∃ blocks', blocks.mapM (purifyBlock settings state) = some blocks' ∧
        noAccessStmts state (blocks'.flatMap (·.stmts)) = true) ↔
      cleanStmts state (blocks.flatMap (·.stmts)) = true := by
  simp only [mapM_eq_some_iff]
  induction blocks with
  | nil => exact ⟨fun _ => rfl, fun _ => ⟨[], .nil, rfl⟩⟩
  | cons block blocks ih =>
    rw [List.flatMap_cons, cleanStmts_append, Bool.and_eq_true, ← ih,
      ← exists_purifyStmts_iff settings hnames]
    constructor
    · rintro ⟨blocks', hblocks, hno⟩
      obtain ⟨block', others, hblock, hothers, rfl⟩ := List.forall₂_cons_left_iff.mp hblocks
      rw [List.flatMap_cons, noAccessStmts_append, Bool.and_eq_true] at hno
      exact ⟨⟨_, (purifyBlock_eq_some_iff.mp hblock).1, hno.1⟩, others, hothers, hno.2⟩
    · rintro ⟨⟨stmts', hstmts, hno⟩, others, hothers, hno'⟩
      refine ⟨⟨stmts', block.successor⟩ :: others, .cons ?_ hothers, ?_⟩
      · exact purifyBlock_eq_some_iff.mpr ⟨hstmts, rfl⟩
      · rw [List.flatMap_cons, noAccessStmts_append, hno, hno']
        rfl

/-- The successors stay. -/
theorem guards_of_purifyBlocks {blocks blocks' : List CfgBlock}
    (h : blocks.mapM (purifyBlock settings state) = some blocks') :
    blocks'.flatMap (·.successor.guards) = blocks.flatMap (·.successor.guards) := by
  rw [mapM_eq_some_iff] at h
  induction h with
  | nil => rfl
  | cons hblock _ ih =>
    rw [List.flatMap_cons, List.flatMap_cons, ih, (purifyBlock_eq_some_iff.mp hblock).2]

theorem exists_fixVars_iff (vars : List LocalVar) :
    (∃ vars', vars.mapM (fixVar state) = some vars') ↔ vars.all (cleanVar state) = true := by
  have hvar : ∀ var, (∃ var', fixVar state var = some var') ↔ cleanVar state var = true := by
    intro var
    rw [fixVar, cleanVar, HashMap.contains_eq_isSome]
    cases state.isPurified var with
    | true => exact Option.isSome_iff_exists.symm
    | false => exact ⟨fun _ => rfl, fun _ => ⟨var, rfl⟩⟩
  simp only [mapM_eq_some_iff, List.all_eq_true, ← hvar]
  constructor
  · rintro ⟨vars', hvars⟩ var hmem
    obtain ⟨var', -, heq⟩ := exists_of_forall₂_mem hvars hmem
    exact ⟨var', heq⟩
  · exact exists_forall₂

/-- The pass gets through, and no statement and no guard of its result accesses a
purified variable. -/
def Eliminates (settings : BoundSettings) (method : CfgMethod) : Prop :=
  ∃ state result, collectVars method = some state ∧
    purifyVars settings method = some result ∧
    noAccessStmts state result.stmts = true ∧
    result.guards.all (noAccess state) = true

/-- The purified variables are at the right places of the statements, the guards do
not access them, and they have replacements where they are declared. -/
structure Eliminable (method : CfgMethod) : Prop where
  stmts : collectableStmts method.stmts = true
  guards : method.guards.all collectable = true
  clean : ∀ state, collectVars method = some state →
    cleanStmts state method.stmts = true ∧
      method.localVars.all (cleanVar state) = true ∧
      method.guards.all (noAccess state) = true

/-- The heap representation is eliminated exactly when the purified variables are at
the right places. -/
theorem purifyVars_eliminates_iff (settings : BoundSettings) (method : CfgMethod) :
    Eliminates settings method ↔ Eliminable method := by
  constructor
  · rintro ⟨state, result, hstate, hresult, hno, hguards⟩
    have hok := (exists_collectVars_iff method).mp ⟨state, hstate⟩
    rw [Bool.and_eq_true] at hok
    refine ⟨hok.1, hok.2, fun state' hstate' => ?_⟩
    cases hstate.symm.trans hstate'
    have hnames := keepsNames_of_collectVars hstate
    rw [purifyVars, hstate, Option.bind_eq_bind, Option.bind_some] at hresult
    obtain ⟨blocks, hblocks, hresult⟩ := Option.bind_eq_some_iff.mp hresult
    obtain ⟨vars, hvars, hresult⟩ := Option.bind_eq_some_iff.mp hresult
    cases hresult
    refine ⟨(exists_purifyBlocks_iff settings hnames _).mp ⟨blocks, hblocks, hno⟩,
      (exists_fixVars_iff _).mp ⟨vars, hvars⟩, ?_⟩
    rw [CfgMethod.guards, ← guards_of_purifyBlocks hblocks]
    exact hguards
  · intro h
    have hok : (collectableStmts method.stmts && method.guards.all collectable) = true := by
      rw [h.stmts, h.guards]
      rfl
    obtain ⟨state, hstate⟩ := (exists_collectVars_iff method).mpr hok
    have hnames := keepsNames_of_collectVars hstate
    obtain ⟨hclean, hvars, hguards⟩ := h.clean state hstate
    obtain ⟨blocks, hblocks, hno⟩ := (exists_purifyBlocks_iff settings hnames _).mpr hclean
    obtain ⟨vars, hvars⟩ := (exists_fixVars_iff _).mpr hvars
    refine ⟨state, { method with basicBlocks := blocks, localVars := vars }, hstate, ?_, hno, ?_⟩
    · rw [purifyVars, hstate]
      simp only [Option.bind_eq_bind, Option.bind_some, hblocks, hvars]
    · rw [CfgMethod.guards, guards_of_purifyBlocks hblocks]
      exact hguards

end Method

namespace Witness

def countVar : LocalVar := ⟨"_1", .typedRef "usize"⟩

/-- `inhale usize(_1)`, and then a branch on `_1.val_int == 0` -/
def branchOnUsize : CfgMethod :=
  { CfgMethod.new 0 "m" 0 [] [countVar] [] with
    basicBlocks := [
      ⟨[.inhale (.predicateAccessPredicate "usize" (Expr.ofLocal countVar) .write
          Position.default)],
        .gotoSwitch [(Expr.mkBinOp .eqCmp
          (.field (Expr.ofLocal countVar) ⟨"val_int", .int⟩ Position.default)
          (Expr.ofInt 0), ⟨0, 1⟩)] ⟨0, 1⟩⟩,
      ⟨[], .ret⟩] }

/-- The guard still reads the field of a variable that is an integer now. -/
theorem purifyVars_keeps_guard : ¬ Eliminates ⟨true, false, 64⟩ branchOnUsize := by
  rintro ⟨state, result, hstate, hresult, -, hguards⟩
  cases hstate
  cases hresult
  exact absurd hguards (by decide)

end Witness

end Prusti.Optimizations

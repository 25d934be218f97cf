/-
The meaning of expressions over variables that are told apart as their equality
tells them apart: by their name and the kind of their type.
-/
import Prusti.Vir.TotalEval

namespace Prusti.Vir

namespace Expr

variable {expr : Expr} {var : LocalVar}

/-- The variables that a node mentions itself. -/
def ownVars : Expr → List LocalVar
  | localVar var _ | letExpr var _ _ _ => [var]
  | forAll vars _ _ _ | exist vars _ _ _ => vars
  | _ => []

/-- The variables that a node binds. -/
def ownBinders : Expr → List LocalVar
  | letExpr var _ _ _ => [var]
  | forAll vars _ _ _ | exist vars _ _ _ => vars
  | _ => []

/-- The variables of a quantifier. -/
def quantified : Expr → Option (List LocalVar)
  | forAll vars _ _ _ | exist vars _ _ _ => some vars
  | _ => none

/-- A node of the expression, or of one of its triggers, has this variable. -/
def HasVar (own : Expr → List LocalVar) (expr : Expr) (var : LocalVar) : Prop :=
  ∃ node ∈ expr.nodes, (own node).contains var = true

abbrev Occurs (var : LocalVar) (expr : Expr) : Prop := expr.HasVar ownVars var

abbrev Binds (expr : Expr) (var : LocalVar) : Prop := expr.HasVar ownBinders var

theorem self_mem_nodes (expr : Expr) : expr ∈ expr.nodes := mem_nodes_iff.mpr (.inl rfl)

theorem nodes_child {child : Expr} (h : child ∈ expr.children) : child.nodes ⊆ expr.nodes :=
  fun _ hnode => mem_nodes_iff.mpr (.inr (.inl ⟨child, h, hnode⟩))

theorem nodes_trigger {part : Expr} {trigger : List Expr} (h : trigger ∈ expr.triggers)
    (hpart : part ∈ trigger) : part.nodes ⊆ expr.nodes :=
  fun _ hnode => mem_nodes_iff.mpr (.inr (.inr ⟨trigger, h, part, hpart, hnode⟩))

theorem HasVar.mono {own : Expr → List LocalVar} {other : Expr} (h : expr.HasVar own var)
    (hnodes : expr.nodes ⊆ other.nodes) : other.HasVar own var :=
  h.imp fun _ => And.imp_left (hnodes ·)

theorem HasVar.name_mem {own : Expr → List LocalVar} (h : expr.HasVar own var) :
    var.name ∈ (expr.nodes.flatMap own).map (·.name) := by
  obtain ⟨node, hnode, hvar⟩ := h
  obtain ⟨other, hother, hsame⟩ := List.contains_iff_exists_mem_beq.mp hvar
  rw [((LocalVar.beq_iff _ _).mp hsame).1]
  exact List.mem_map_of_mem (List.mem_flatMap.mpr ⟨node, hnode, hother⟩)

/-- The variable occurs, outside of the quantifiers of it. -/
inductive Reached (var : LocalVar) : Expr → Prop where
  | localVar {other pos} (h : (var == other) = true) : Reached var (.localVar other pos)
  | child {expr child : Expr}
      (hquant : ∀ vars, expr.quantified = some vars → vars.contains var = false)
      (hchild : child ∈ expr.children) (h : Reached var child) : Reached var expr

theorem Reached.occurs (h : expr.Reached var) : expr.Occurs var := by
  induction h with
  | localVar h => exact ⟨_, self_mem_nodes _, by simpa [ownVars] using h⟩
  | child _ hchild _ ih => exact ih.mono (nodes_child hchild)

theorem Reached.congr {var' : LocalVar} (hsame : (var == var') = true) (h : expr.Reached var) :
    expr.Reached var' := by
  induction h with
  | localVar h => exact .localVar (BEq.trans (BEq.symm hsame) h)
  | child hquant hchild _ ih =>
    exact .child (fun vars hvars => List.contains_congr hsame ▸ hquant vars hvars) hchild ih

end Expr

namespace TotalModel

variable (M : TotalModel)

/-- The values of the variables, by name and kind. -/
abbrev VarEnv := String → TypeId → M.V

namespace VarEnv

variable {M}

def get (env : M.VarEnv) (var : LocalVar) : M.V := env var.name var.typ.getId

def set (env : M.VarEnv) (var : LocalVar) (value : M.V) : M.VarEnv := fun name id =>
  if name = var.name ∧ id = var.typ.getId then value else env name id

/-- The values of the variables inside of a binder. -/
def bind (env : M.VarEnv) : List LocalVar → List M.V → M.VarEnv
  | var :: vars, value :: values => (bind env vars values).set var value
  | _, _ => env

theorem get_set (env : M.VarEnv) (var other : LocalVar) (value : M.V) :
    (env.set var value).get other = if (other == var) = true then value else env.get other := by
  simp only [get, set, LocalVar.beq_iff, Typ.beq_iff]

end VarEnv

mutual

/-- The value of an expression in a state, known by the operations and the names of
fields and functions. -/
def value : Expr → M.State → M.VarEnv → M.V
  | .localVar var _, _, env => env.get var
  | .const value _, _, _ => M.const value
  | .variant base fld _, state, env => M.variant state fld.name (value base state env)
  | .field base fld _, state, env => M.field state fld.name (value base state env)
  | .addrOf base _ _, state, env => M.addrOf state (value base state env)
  | .snapApp base _, state, env => M.snap state (value base state env)
  | .labelledOld label base _, state, env => value base (M.old label state) env
  | .magicWand lhs rhs borrow _, state, env =>
    M.wand borrow state (fun other => value lhs other env) fun other => value rhs other env
  | .predicateAccessPredicate name arg perm _, state, env =>
    M.pred name perm state (value arg state env)
  | .fieldAccessPredicate base perm _, state, env =>
    match loc base state env with
    | some (name, receiver) => M.accField perm state name receiver
    | none => M.accOther perm state (value base state env)
  | .unaryOp op arg _, state, env => M.unary op (value arg state env)
  | .binOp op left right _, state, env =>
    M.binary op (value left state env) (value right state env)
  | .containerOp op left right _, state, env =>
    M.container op (value left state env) (value right state env)
  | .seq _ elems _, state, env => M.seq (valueEach elems state env)
  | .unfolding _ _ base _ _ _, state, env => value base state env
  | .cond guard thenExpr elseExpr _, state, env =>
    M.cond (value guard state env) (value thenExpr state env) (value elseExpr state env)
  | .forAll vars _ body _, state, env =>
    M.ofProp (∀ values ∈ M.Tuples vars, M.holds (value body state (env.bind vars values)))
  | .exist vars _ body _, state, env =>
    M.ofProp (∃ values ∈ M.Tuples vars, M.holds (value body state (env.bind vars values)))
  | .letExpr var expr body _, state, env =>
    value body state (env.set var (value expr state env))
  | .funcApp name args _ _ _, state, env => M.func name state (valueEach args state env)
  | .domainFuncApp func args _, state, env =>
    M.domainFunc func.domainName func.name (valueEach args state env)
  | .inhaleExhale inhaleExpr exhaleExpr _, state, env =>
    M.inhaleExhale (value inhaleExpr state env) (value exhaleExpr state env)
  | .downcast base _ _, state, env => value base state env

/-- The location that an access talks about. -/
def loc : Expr → M.State → M.VarEnv → Option (String × M.V)
  | .field base fld _, state, env => some (fld.name, value base state env)
  | .unfolding _ _ base _ _ _, state, env => loc base state env
  | _, _, _ => none

def valueEach : List Expr → M.State → M.VarEnv → List M.V
  | [], _, _ => []
  | expr :: rest, state, env => value expr state env :: valueEach rest state env

end

theorem valueEach_eq_map (exprs : List Expr) (state : M.State) (env : M.VarEnv) :
    M.valueEach exprs state env = exprs.map fun expr => M.value expr state env := by
  induction exprs with
  | nil => rfl
  | cons expr rest ih => rw [valueEach, ih, List.map_cons]

section Env

variable {M} {vars : List LocalVar} {values : List M.V} {var : LocalVar}

namespace VarEnv

/-- A variable that is not bound keeps its value. -/
theorem get_bind_of_not_contains (h : vars.contains var = false) (env : M.VarEnv) :
    (env.bind vars values).get var = env.get var := by
  induction vars generalizing values with
  | nil => rfl
  | cons first vars ih =>
    rw [List.contains_cons, Bool.or_eq_false_iff] at h
    cases values with
    | nil => rfl
    | cons value values => rw [bind, get_set, if_neg (by simp [h.1]), ih h.2]

/-- The value of a bound variable does not depend on the outer ones. -/
theorem get_bind_of_contains (h : vars.contains var = true)
    (hlength : vars.length = values.length) (env env' : M.VarEnv) :
    (env.bind vars values).get var = (env'.bind vars values).get var := by
  induction vars generalizing values with
  | nil => cases h
  | cons first vars ih =>
    cases values with
    | nil => cases hlength
    | cons value values =>
      rw [bind, bind, get_set, get_set]
      split
      · rfl
      · next hfirst =>
          rw [List.contains_cons, Bool.or_eq_true, or_iff_right hfirst] at h
          exact ih h (Nat.succ.inj hlength)

theorem get_bind_congr {env env' : M.VarEnv} (h : env.get var = env'.get var)
    (hlength : vars.length = values.length) :
    (env.bind vars values).get var = (env'.bind vars values).get var := by
  cases hvar : vars.contains var with
  | false => rw [get_bind_of_not_contains hvar, get_bind_of_not_contains hvar, h]
  | true => exact get_bind_of_contains hvar hlength env env'

/-- Give several variables their values at once. -/
def assign (env : M.VarEnv) (entries : List (LocalVar × M.V)) : M.VarEnv :=
  entries.foldr (fun entry env => env.set entry.1 entry.2) env

theorem get_assign_cons (env : M.VarEnv) (entry : LocalVar × M.V)
    (entries : List (LocalVar × M.V)) (var : LocalVar) :
    (env.assign (entry :: entries)).get var =
      if (var == entry.1) = true then entry.2 else (env.assign entries).get var :=
  get_set _ _ _ _

theorem get_assign_congr {env env' : M.VarEnv} (h : env.get var = env'.get var)
    (entries : List (LocalVar × M.V)) :
    (env.assign entries).get var = (env'.assign entries).get var := by
  induction entries with
  | nil => exact h
  | cons entry entries ih => rw [get_assign_cons, get_assign_cons, ih]

theorem get_assign_of_forall {env : M.VarEnv} {entries : List (LocalVar × M.V)}
    (h : ∀ entry ∈ entries, (var == entry.1) = false) :
    (env.assign entries).get var = env.get var := by
  induction entries with
  | nil => rfl
  | cons entry entries ih =>
    rw [List.forall_mem_cons] at h
    rw [get_assign_cons, if_neg (by simp [h.1]), ih h.2]

/-- For a variable that is not both bound and assigned, the binder may be entered before or
after. -/
theorem get_bind_assign {entries : List (LocalVar × M.V)} {var : LocalVar}
    (h : ∀ entry ∈ entries, vars.contains entry.1 = true → (var == entry.1) = false)
    (hlength : vars.length = values.length) (env : M.VarEnv) :
    ((env.assign entries).bind vars values).get var =
      ((env.bind vars values).assign entries).get var := by
  cases hvar : vars.contains var with
  | false =>
    rw [get_bind_of_not_contains hvar]
    exact get_assign_congr (get_bind_of_not_contains hvar env).symm entries
  | true =>
    rw [get_assign_of_forall]
    · exact get_bind_of_contains hvar hlength _ _
    · intro entry hentry
      by_contra hsame
      rw [Bool.not_eq_false] at hsame
      rw [List.contains_congr hsame] at hvar
      rw [h entry hentry hvar] at hsame
      cases hsame

/-- What is bound hides what was set before. -/
theorem get_bind_set_of_contains {target : LocalVar} (h : vars.contains target = true)
    (hlength : vars.length = values.length) (env : M.VarEnv) (value : M.V) (var : LocalVar) :
    ((env.set target value).bind vars values).get var = (env.bind vars values).get var := by
  cases hvar : vars.contains var with
  | true => exact get_bind_of_contains hvar hlength _ _
  | false =>
    rw [get_bind_of_not_contains hvar, get_bind_of_not_contains hvar, get_set, if_neg]
    intro hsame
    rw [List.contains_congr hsame, h] at hvar
    cases hvar

end VarEnv

end Env

variable {M}

variable {state : M.State} {env env' : M.VarEnv}

theorem length_of_mem_tuples {vars : List LocalVar} {values : List M.V}
    (h : values ∈ M.Tuples vars) : vars.length = values.length :=
  List.Forall₂.length_eq h

theorem value_forAll_congr {vars : List LocalVar} {triggers triggers' : List (List Expr)}
    {body body' : Expr} {pos pos' : Position}
    (h : ∀ values, vars.length = values.length →
      M.value body state (env.bind vars values) = M.value body' state (env'.bind vars values)) :
    M.value (.forAll vars triggers body pos) state env =
      M.value (.forAll vars triggers' body' pos') state env' := by
  apply congrArg M.ofProp
  apply propext
  apply forall₂_congr
  intro values hvalues
  rw [h values (length_of_mem_tuples hvalues)]

theorem value_exist_congr {vars : List LocalVar} {triggers triggers' : List (List Expr)}
    {body body' : Expr} {pos pos' : Position}
    (h : ∀ values, vars.length = values.length →
      M.value body state (env.bind vars values) = M.value body' state (env'.bind vars values)) :
    M.value (.exist vars triggers body pos) state env =
      M.value (.exist vars triggers' body' pos') state env' := by
  apply congrArg M.ofProp
  apply propext
  apply exists_congr
  intro values
  apply and_congr_right
  intro hvalues
  rw [h values (length_of_mem_tuples hvalues)]

theorem valueEach_congr {exprs : List Expr}
    (h : ∀ expr ∈ exprs, M.value expr state env = M.value expr state env') :
    M.valueEach exprs state env = M.valueEach exprs state env' := by
  rw [valueEach_eq_map, valueEach_eq_map]
  exact List.map_congr_left h

/-- A value depends on the variables that are reached. -/
theorem value_loc_congr (expr : Expr) (state : M.State)
    (h : ∀ var, expr.Reached var → env.get var = env'.get var) :
    M.value expr state env = M.value expr state env' ∧
      M.loc expr state env = M.loc expr state env' := by
  induction expr using Expr.children_induction generalizing state env env' with
  | h expr ih _ =>
  have hbind : ∀ child ∈ expr.children, ∀ vars values,
      (∀ vars', expr.quantified = some vars' → vars' = vars) → vars.length = values.length →
        ∀ state, M.value child state (env.bind vars values) =
            M.value child state (env'.bind vars values) ∧
          M.loc child state (env.bind vars values) = M.loc child state (env'.bind vars values) := by
    intro child hchild vars values hvars hlength state
    apply ih child hchild state
    intro var hvar
    cases hbound : vars.contains var with
    | true => exact VarEnv.get_bind_of_contains hbound hlength env env'
    | false =>
      refine VarEnv.get_bind_congr (h var (.child (fun vars' hvars' => ?_) hchild hvar)) hlength
      rw [hvars vars' hvars', hbound]
  have hchild : expr.quantified = none → ∀ child ∈ expr.children, ∀ state,
      M.value child state env = M.value child state env' ∧
        M.loc child state env = M.loc child state env' :=
    fun hnone child hmem => hbind child hmem [] [] (by simp [hnone]) rfl
  cases expr with
  | localVar var pos => exact ⟨h var (.localVar BEq.rfl), rfl⟩
  | const => exact ⟨rfl, rfl⟩
  | variant base | addrOf base | snapApp base | labelledOld _ base
  | predicateAccessPredicate _ base | unaryOp _ base | field base
  | fieldAccessPredicate base =>
    simp only [Expr.children, List.forall_mem_singleton] at hchild
    simp only [value, loc, hchild rfl, and_self]
  | magicWand left right | binOp _ left right | containerOp _ left right
  | inhaleExhale left right | downcast left right | cond guard thenExpr elseExpr =>
    simp only [Expr.children, List.forall_mem_cons] at hchild
    simp only [value, loc, hchild rfl, and_self]
  | seq _ elems | funcApp _ elems | domainFuncApp _ elems =>
    have heach : M.valueEach elems state env = M.valueEach elems state env' :=
      valueEach_congr fun elem helem => (hchild rfl elem helem state).1
    simp only [value, loc, heach, and_self]
  | unfolding _ args base =>
    have hbase := hchild rfl base (by simp [Expr.children])
    simp only [value, loc, hbase, and_self]
  | letExpr var expr body =>
    have hexpr := (hchild rfl expr List.mem_cons_self state).1
    have hbody := hbind body (by simp [Expr.children]) [var] [M.value expr state env']
      (by simp [Expr.quantified]) rfl
    refine ⟨?_, rfl⟩
    rw [value, value, hexpr]
    exact (hbody state).1
  | forAll vars _ body | exist vars _ body =>
    refine ⟨?_, rfl⟩
    first
      | apply value_forAll_congr
      | apply value_exist_congr
    exact fun values hlength =>
      (hbind body List.mem_cons_self vars values (by simp [Expr.quantified]) hlength state).1

theorem value_congr (expr : Expr) (state : M.State)
    (h : ∀ var, expr.Reached var → env.get var = env'.get var) :
    M.value expr state env = M.value expr state env' :=
  (value_loc_congr expr state h).1

/-- Variables that do not occur may be bound around an expression. -/
theorem value_bind {expr : Expr} {vars : List LocalVar}
    (h : ∀ var, vars.contains var = true → ¬ expr.Occurs var) (state : M.State)
    (env : M.VarEnv) (values : List M.V) :
    M.value expr state (env.bind vars values) = M.value expr state env := by
  apply value_congr
  intro var hvar
  apply VarEnv.get_bind_of_not_contains
  by_contra hbound
  rw [Bool.not_eq_false] at hbound
  exact h var hbound hvar.occurs

end TotalModel

end Prusti.Vir

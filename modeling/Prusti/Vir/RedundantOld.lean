/-
The removal of redundant labelled olds: it keeps the value of an expression, and the exact
expressions that it leaves without an `old` directly below one with the same label.
-/
import Prusti.Vir.VarEval

namespace Prusti.Vir

variable {expr : Expr} {outer current : Option String} {same : Bool}

namespace Expr

theorem getLabel_rebuild {parts : List Expr} (h : parts.length = expr.children.length) :
    (expr.rebuild parts).getLabel = expr.getLabel :=
  apply_rebuild (by intro expr; cases expr <;> rfl) h

section Pass

/-- The remover at a node, below an `old` with the current label. -/
def foldOldNode (node : Expr) (folds : List (Option String → Expr))
    (current : Option String) : Expr :=
  match node, folds with
  | labelledOld label _ pos, [fold] =>
    let newBase := fold (some label)
    if some label = current then newBase else (newBase.old label).setPos pos
  | _, _ => node.rebuild (folds.map fun fold => fold current)

def foldOld (expr : Expr) : Option String → Expr :=
  expr.para fun node folds _ => foldOldNode node folds

/-- Replace expressions like `old[l5](old[l5](_9.val_ref).foo.bar)` by
`old[l5](_9.val_ref.foo.bar)`. -/
def removeRedundantOld (expr : Expr) : Expr := expr.foldOld none

theorem foldOld_labelledOld (label : String) (base : Expr) (pos : Position)
    (current : Option String) :
    (labelledOld label base pos).foldOld current =
      if some label = current then base.foldOld (some label)
      else ((base.foldOld (some label)).old label).setPos pos := by
  rw [foldOld, para_eq]
  rfl

theorem foldOld_eq (h : expr.getLabel = none) (current : Option String) :
    expr.foldOld current = expr.rebuild (expr.children.map fun child => child.foldOld current) := by
  have hnode : ∀ folds, foldOldNode expr folds current =
      expr.rebuild (folds.map fun fold => fold current) := by
    intro folds
    cases expr with
    | labelledOld => cases h
    | _ => rfl
  rw [foldOld, para_eq, hnode, List.map_map]
  rfl

end Pass

section NormalForm

def normalNode (node : Expr) (parts : List (Option String → Prop))
    (triggers : List (List (Option String → Prop))) (enclosing : Option String) : Prop :=
  match node with
  | labelledOld label _ _ => some label ≠ enclosing ∧ ∀ part ∈ parts, part (some label)
  | _ => (∀ part ∈ parts, part enclosing) ∧ ∀ trigger ∈ triggers, ∀ part ∈ trigger, part enclosing

/-- No `old` has the label of the nearest `old` around it, where the expression itself is
below an `old` with the given label. -/
def Normal (expr : Expr) : Option String → Prop := expr.para normalNode

theorem normal_labelledOld (label : String) (base : Expr) (pos : Position)
    (enclosing : Option String) :
    (labelledOld label base pos).Normal enclosing ↔
      some label ≠ enclosing ∧ base.Normal (some label) := by
  rw [Normal, para_eq]
  simp [normalNode, children, Normal]

theorem normal_iff (h : expr.getLabel = none) (enclosing : Option String) :
    expr.Normal enclosing ↔ (∀ child ∈ expr.children, child.Normal enclosing) ∧
      ∀ trigger ∈ expr.triggers, ∀ part ∈ trigger, part.Normal enclosing := by
  rw [Normal, para_eq]
  cases expr with
  | labelledOld => cases h
  | _ => simp [normalNode, Normal]

theorem normal_setPos (expr : Expr) (pos : Position) : (expr.setPos pos).Normal = expr.Normal := by
  cases expr <;> rfl

end NormalForm

section Stacks

/-- The remover leaves of a stack of nested olds its innermost `old`, or nothing if all labels
of the stack are that of the `old` around it.  Here `outer` is the label around the stack,
`current` the innermost label so far, and `same` tells whether all labels so far are `outer`.
Triggers stay as they are. -/
def safeStacksNode (node : Expr) (parts : List (Option String → Option String → Bool → Prop))
    (outer current : Option String) (same : Bool) : Prop :=
  match node with
  | labelledOld label _ _ =>
    ∀ part ∈ parts, part outer (some label) (same && some label == outer)
  | localVar _ _ => True
  -- the bottom of the stack: an `old` that is left has another label than `outer`
  | _ => (current = outer → same = true) ∧ (∀ part ∈ parts, part current current true) ∧
      ∀ trigger ∈ node.triggers, ∀ part ∈ trigger, part.Normal current

/-- Every stack of nested olds is safe. -/
def SafeStacks (expr : Expr) : Option String → Option String → Bool → Prop :=
  expr.para fun node parts _ => safeStacksNode node parts

theorem safeStacks_labelledOld (label : String) (base : Expr) (pos : Position)
    (outer current : Option String) (same : Bool) :
    (labelledOld label base pos).SafeStacks outer current same ↔
      base.SafeStacks outer (some label) (same && some label == outer) := by
  rw [SafeStacks, para_eq]
  simp [safeStacksNode, children, SafeStacks]

theorem safeStacks_iff (hlabel : expr.getLabel = none) (hlocal : expr.isLocal = false)
    (outer current : Option String) (same : Bool) :
    expr.SafeStacks outer current same ↔ (current = outer → same = true) ∧
      (∀ child ∈ expr.children, child.SafeStacks current current true) ∧
        ∀ trigger ∈ expr.triggers, ∀ part ∈ trigger, part.Normal current := by
  rw [SafeStacks, para_eq]
  cases expr with
  | labelledOld => cases hlabel
  | localVar => cases hlocal
  | _ => simp [safeStacksNode, SafeStacks]

/-- The result for a stack of olds, from the result for what is below its last label. -/
def placed (current : Option String) (same : Bool) (expr : Expr) : Expr :=
  match current with
  | some label => if same then expr else expr.old label
  | none => expr

@[simp] theorem placed_true (current : Option String) (expr : Expr) :
    placed current true expr = expr := by
  cases current <;> rfl

/-- What is below an `old` for sure gets no other one. -/
theorem placed_old (current : Option String) (same : Bool) (expr : Expr) (label : String)
    (pos : Position) :
    placed current same ((expr.old label).setPos pos) = (expr.old label).setPos pos := by
  cases same with
  | true => exact placed_true _ _
  | false =>
    cases current with
    | none => rfl
    | some => cases expr <;> rfl

/-- One `old` of the stack. -/
theorem normal_placed_labelledOld (label : String) (base : Expr) (pos : Position)
    (hsame : same = true → current = outer) :
    (placed current same ((labelledOld label base pos).foldOld current)).Normal outer ↔
      (placed (some label) (same && some label == outer)
        (base.foldOld (some label))).Normal outer := by
  rw [foldOld_labelledOld]
  by_cases hlabel : some label = current
  · subst hlabel
    have hflag : (same && some label == outer) = same := by
      cases same with
      | false => rfl
      | true => simp [hsame rfl]
    rw [if_pos rfl, hflag]
  · have hflag : (same && some label == outer) = false := by
      cases same with
      | false => rfl
      | true => simpa [← hsame rfl] using hlabel
    rw [if_neg hlabel, placed_old, normal_setPos, hflag]
    rfl

/-- The node at the bottom of a stack. -/
theorem normal_placed_core (hlabel : expr.getLabel = none) (hlocal : expr.isLocal = false)
    (hsame : same = true → current = outer) (hnone : current = none → same = true) :
    (placed current same expr).Normal outer ↔
      (current = outer → same = true) ∧ expr.Normal current := by
  cases same with
  | true => simp [hsame rfl]
  | false =>
    cases current with
    | none => cases hnone rfl
    | some label =>
      have hold : expr.old label = labelledOld label expr .default := by
        cases expr with
        | labelledOld => cases hlabel
        | localVar => cases hlocal
        | _ => rfl
      simp [placed, hold, normal_labelledOld]

/-- What the remover makes of a stack of olds and of what is below it. -/
theorem normal_placed_foldOld (expr : Expr) (hsame : same = true → current = outer)
    (hnone : current = none → same = true) :
    (placed current same (expr.foldOld current)).Normal outer ↔
      expr.SafeStacks outer current same := by
  induction expr using Expr.children_induction generalizing outer current same with
  | h expr ih _ =>
  cases hlabel : expr.getLabel with
  | some =>
    cases expr with
    | labelledOld label base pos =>
      rw [normal_placed_labelledOld label base pos hsame, safeStacks_labelledOld]
      refine ih base List.mem_cons_self ?_ nofun
      intro hflag
      simpa using (Bool.and_eq_true_iff.mp hflag).2
    | _ => cases hlabel
  | none =>
  cases hlocal : expr.isLocal with
  | true =>
    cases expr with
    | localVar var pos =>
      have hplaced : placed current same (localVar var pos) = localVar var pos := by
        cases same with
        | true => exact placed_true _ _
        | false => cases current <;> rfl
      change (placed current same (localVar var pos)).Normal outer ↔ True
      rw [hplaced, normal_iff rfl]
      simp [children, triggers]
    | _ => cases hlocal
  | false =>
    have hlength : (expr.children.map fun child => child.foldOld current).length =
        expr.children.length := List.length_map _
    have hfold := foldOld_eq hlabel current
    have hlabel' : (expr.foldOld current).getLabel = none := by
      rw [hfold, getLabel_rebuild hlength, hlabel]
    have hlocal' : (expr.foldOld current).isLocal = false := by
      rw [hfold, isLocal_rebuild hlength, hlocal]
    rw [normal_placed_core hlabel' hlocal' hsame hnone, safeStacks_iff hlabel hlocal,
      normal_iff hlabel', hfold, children_rebuild hlength, triggers_rebuild hlength,
      List.forall_mem_map]
    have hchild : ∀ child ∈ expr.children,
        ((child.foldOld current).Normal current ↔ child.SafeStacks current current true) := by
      intro child hchild
      rw [← ih child hchild (fun _ => rfl) fun _ => rfl, placed_true]
    rw [forall₂_congr hchild]

theorem normal_removeRedundantOld_iff (expr : Expr) :
    expr.removeRedundantOld.Normal none ↔ expr.SafeStacks none none true := by
  rw [← normal_placed_foldOld expr (fun _ => rfl) fun _ => rfl, placed_true]
  rfl

end Stacks

section Evaluable

/-- The resources, which are not allowed below an `old`. -/
def isResource : Expr → Bool
  | magicWand _ _ _ _ | predicateAccessPredicate _ _ _ _ | fieldAccessPredicate _ _ _ => true
  | _ => false

def evaluableNode (node : Expr) (parts : List (Bool → Bool)) (inOld : Bool) : Bool :=
  match node with
  | labelledOld _ _ _ => parts.all fun part => part true
  | _ => !(inOld && node.isResource) && parts.all fun part => part inOld

/-- No resource is below an `old`. -/
def isEvaluable (expr : Expr) : Bool → Bool :=
  expr.para fun node parts _ => evaluableNode node parts

theorem isEvaluable_labelledOld (label : String) (base : Expr) (pos : Position)
    (inOld : Bool) : (labelledOld label base pos).isEvaluable inOld = base.isEvaluable true := by
  rw [isEvaluable, para_eq]
  simp [evaluableNode, children, isEvaluable]

theorem isEvaluable_eq (h : expr.getLabel = none) (inOld : Bool) :
    expr.isEvaluable inOld =
      (!(inOld && expr.isResource) && expr.children.all fun child => child.isEvaluable inOld) := by
  rw [isEvaluable, para_eq]
  cases expr with
  | labelledOld => cases h
  | _ => simp [evaluableNode, isEvaluable, List.all_map, Function.comp_def]

theorem isResource_rebuild {parts : List Expr} (h : parts.length = expr.children.length) :
    (expr.rebuild parts).isResource = expr.isResource :=
  apply_rebuild (by intro expr; cases expr <;> rfl) h

theorem isEvaluable_setPos (expr : Expr) (pos : Position) :
    (expr.setPos pos).isEvaluable = expr.isEvaluable := by
  cases expr <;> rfl

theorem isEvaluable_old (expr : Expr) (label : String) (inOld : Bool) :
    (expr.old label).isEvaluable inOld = expr.isEvaluable true := by
  cases expr with
  | localVar => rw [old, isEvaluable_eq rfl, isEvaluable_eq rfl]; simp [isResource, children]
  | labelledOld => rw [old, isEvaluable_labelledOld, isEvaluable_labelledOld]
  | _ => exact isEvaluable_labelledOld _ _ _ _

/-- The remover moves no resource into an `old` or out of one. -/
theorem isEvaluable_foldOld (expr : Expr) (current : Option String) :
    (expr.foldOld current).isEvaluable current.isSome = expr.isEvaluable current.isSome := by
  induction expr using Expr.children_induction generalizing current with
  | h expr ih _ =>
  cases hlabel : expr.getLabel with
  | some =>
    cases expr with
    | labelledOld label base pos =>
      have hbase := ih base List.mem_cons_self (some label)
      rw [foldOld_labelledOld, isEvaluable_labelledOld]
      split
      · next hcurrent => rw [← hcurrent, hbase]; rfl
      · rw [isEvaluable_setPos, isEvaluable_old]
        exact hbase
    | _ => cases hlabel
  | none =>
    have hlength : (expr.children.map fun child => child.foldOld current).length =
        expr.children.length := List.length_map _
    rw [foldOld_eq hlabel, isEvaluable_eq ((getLabel_rebuild hlength).trans hlabel),
      isEvaluable_eq hlabel, isResource_rebuild hlength, children_rebuild hlength, List.all_map]
    congr 1
    rw [Bool.eq_iff_iff, List.all_eq_true, List.all_eq_true]
    exact forall₂_congr fun child hchild => by rw [Function.comp_apply, ih child hchild]

end Evaluable

end Expr

namespace TotalModel

variable {M : TotalModel} {heaps : String → M.State}

theorem value_setPos (expr : Expr) (pos : Position) : M.value (expr.setPos pos) = M.value expr := by
  cases expr <;> rfl

theorem value_old (hheaps : ∀ label state, M.old label state = heaps label) (expr : Expr)
    (label : String) (state : M.State) (env : M.VarEnv) :
    M.value (expr.old label) state env = M.value expr (heaps label) env := by
  rw [← hheaps label state]
  cases expr with
  | localVar => rfl
  | labelledOld inner base => rw [Expr.old, value, value, hheaps, hheaps]
  | _ => rfl

theorem loc_old (expr : Expr) (label : String) (pos : Position) (state : M.State)
    (env : M.VarEnv) : M.loc ((expr.old label).setPos pos) state env = none := by
  cases expr <;> rfl

/-- A node that is no resource depends on the values of its parts in the same state. -/
theorem value_rebuild (hlabel : expr.getLabel = none) (hresource : expr.isResource = false)
    {f : Expr → Expr} {state : M.State}
    (h : ∀ child ∈ expr.children, ∀ env, M.value (f child) state env = M.value child state env)
    (env : M.VarEnv) :
    M.value (expr.rebuild (expr.children.map f)) state env = M.value expr state env := by
  cases expr with
  | labelledOld => cases hlabel
  | magicWand | predicateAccessPredicate | fieldAccessPredicate => cases hresource
  | localVar | const => rfl
  | variant | field | addrOf | snapApp | unaryOp =>
    simp only [Expr.children, List.forall_mem_singleton] at h
    simp only [Expr.children, List.map_cons, List.map_nil, Expr.rebuild, value, h]
  | binOp | containerOp | inhaleExhale | downcast | cond | letExpr =>
    simp only [Expr.children, List.forall_mem_cons] at h
    simp only [Expr.children, List.map_cons, List.map_nil, Expr.rebuild, value, h]
  | forAll | exist =>
    simp only [Expr.children, List.forall_mem_singleton] at h
    simp only [Expr.children, List.map_cons, List.map_nil, Expr.rebuild, value, h]
  | seq typ elems | funcApp name elems | domainFuncApp func elems =>
    have heach : M.valueEach (elems.map f) state env = M.valueEach elems state env := by
      rw [valueEach_eq_map, valueEach_eq_map, List.map_map]
      exact List.map_congr_left fun elem helem => h elem helem env
    simp only [Expr.children, Expr.rebuild, value, heach]
  | unfolding name args base =>
    have hbase := h base (by simp [Expr.children]) env
    simp [Expr.children, Expr.rebuild, value, hbase]

/-- Below an `old`, where there are no resources, values are kept. -/
theorem value_foldOld_some (hheaps : ∀ label state, M.old label state = heaps label)
    (h : expr.isEvaluable true = true) (label : String) (env : M.VarEnv) :
    M.value (expr.foldOld (some label)) (heaps label) env = M.value expr (heaps label) env := by
  induction expr using Expr.children_induction generalizing label env with
  | h expr ih _ =>
  cases hlabel : expr.getLabel with
  | some =>
    cases expr with
    | labelledOld inner base pos =>
      rw [Expr.isEvaluable_labelledOld] at h
      have hbase := ih base List.mem_cons_self h
      rw [Expr.foldOld_labelledOld, value, hheaps]
      split
      · next hinner =>
        cases hinner
        exact hbase label env
      · rw [value_setPos, value_old hheaps]
        exact hbase inner env
    | _ => cases hlabel
  | none =>
    rw [Expr.isEvaluable_eq hlabel, Bool.and_eq_true, List.all_eq_true] at h
    rw [Expr.foldOld_eq hlabel]
    refine value_rebuild hlabel (by simpa using h.1) ?_ env
    exact fun child hchild env => ih child hchild (h.2 child hchild) label env

/-- Outside of the olds values and locations are kept. -/
theorem value_foldOld_none (hheaps : ∀ label state, M.old label state = heaps label)
    (h : expr.isEvaluable false = true) (state : M.State) (env : M.VarEnv) :
    M.value (expr.foldOld none) state env = M.value expr state env ∧
      M.loc (expr.foldOld none) state env = M.loc expr state env := by
  induction expr using Expr.children_induction generalizing state env with
  | h expr ih _ =>
  cases hlabel : expr.getLabel with
  | some =>
    cases expr with
    | labelledOld label base pos =>
      rw [Expr.isEvaluable_labelledOld] at h
      rw [Expr.foldOld_labelledOld, if_neg nofun, value_setPos, value_old hheaps, loc_old,
        value, hheaps]
      exact ⟨value_foldOld_some hheaps h label env, rfl⟩
    | _ => cases hlabel
  | none =>
    rw [Expr.isEvaluable_eq hlabel, Bool.and_eq_true, List.all_eq_true] at h
    replace ih := fun child hchild => ih child hchild (h.2 child hchild)
    rw [Expr.foldOld_eq hlabel]
    constructor
    · cases hresource : expr.isResource with
      | false =>
        exact value_rebuild hlabel hresource
          (fun child hchild env => (ih child hchild state env).1) env
      | true =>
        cases expr with
        | magicWand =>
          simp only [Expr.children, List.forall_mem_cons] at ih
          simp only [Expr.children, List.map_cons, List.map_nil, Expr.rebuild, value, ih]
        | predicateAccessPredicate | fieldAccessPredicate =>
          simp only [Expr.children, List.forall_mem_singleton] at ih
          simp only [Expr.children, List.map_cons, List.map_nil, Expr.rebuild, value, ih]
        | _ => cases hresource
    · cases expr with
      | labelledOld => cases hlabel
      | field =>
        simp only [Expr.children, List.forall_mem_singleton] at ih
        simp only [Expr.children, List.map_cons, List.map_nil, Expr.rebuild, loc, ih]
      | unfolding name args base =>
        have hbase := (ih base (by simp [Expr.children]) state env).2
        simp [Expr.children, Expr.rebuild, loc, hbase]
      | _ => rfl

/-- The value of an expression, if no resource is below an `old`. -/
def valueChecked (M : TotalModel) (expr : Expr) (state : M.State) (env : M.VarEnv) : Option M.V :=
  if expr.isEvaluable false then some (M.value expr state env) else none

end TotalModel

namespace Expr

/-- Two expressions have the same value for every family of labelled heaps. -/
def SameValue (expr expr' : Expr) : Prop :=
  ∀ (M : TotalModel) (heaps : String → M.State),
    (∀ label state, M.old label state = heaps label) →
      ∀ state env, M.valueChecked expr state env = M.valueChecked expr' state env

theorem sameValue_removeRedundantOld (expr : Expr) : SameValue expr.removeRedundantOld expr := by
  intro M heaps hheaps state env
  have heval : expr.removeRedundantOld.isEvaluable false = expr.isEvaluable false :=
    isEvaluable_foldOld expr none
  rw [TotalModel.valueChecked, TotalModel.valueChecked, heval]
  split
  · next h => rw [removeRedundantOld, (TotalModel.value_foldOld_none hheaps h state env).1]
  · rfl

/-- The value is always kept.  No `old` is left with the label of the nearest `old` around it
exactly when no stack of olds is cut down to such an `old`. -/
theorem removeRedundantOld_spec_iff (expr : Expr) :
    SameValue expr.removeRedundantOld expr ∧ expr.removeRedundantOld.Normal none ↔
      expr.SafeStacks none none true := by
  rw [← normal_removeRedundantOld_iff]
  exact and_iff_right (sameValue_removeRedundantOld expr)

namespace Witness

/-- `old[a](old[b](old[a](x.f)).g)`, where the `old` of `b` vanishes. -/
def nestedOlds : Expr :=
  let x := localVar ⟨"x", .typedRef "T"⟩ .default
  let inner := labelledOld "a" (field x ⟨"f", .typedRef "T"⟩ .default) .default
  labelledOld "a" (field (labelledOld "b" inner .default) ⟨"g", .int⟩ .default) .default

theorem nestedOlds_not_normal :
    ¬ (SameValue nestedOlds.removeRedundantOld nestedOlds ∧
      nestedOlds.removeRedundantOld.Normal none) := by
  rintro ⟨-, hnormal⟩
  have hfield := ((normal_labelledOld _ _ _ _).mp hnormal).2
  have hinner := ((normal_iff rfl _).mp hfield).1 _ List.mem_cons_self
  exact ((normal_labelledOld _ _ _ _).mp hinner).1 rfl

end Witness

end Expr

end Prusti.Vir

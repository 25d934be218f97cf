/-
The replacement of one or of several places, compared with the evaluation in an
environment that gives the targets the values of their replacements.
-/
import Prusti.Vir.Rebase
import Prusti.Vir.VarEval

namespace Prusti.Vir

/-- A variable and what replaces it. -/
structure LocalReplacement where
  target : LocalVar
  pos : Position
  replacement : Expr

namespace LocalReplacement

def entry (rep : LocalReplacement) : Expr × Expr := (.localVar rep.target rep.pos, rep.replacement)

/-- The value of the replacement, for the target. -/
def value {M : TotalModel} (state : M.State) (env : M.VarEnv) (rep : LocalReplacement) :
    LocalVar × M.V :=
  (rep.target, M.value rep.replacement state env)

end LocalReplacement

namespace Expr

/-! The simultaneous replacement. -/

section Multiple

variable (replacements : List (Expr × Expr)) (substs : List (Option Typaram.Substs))

/-- The first replacement whose source is this place. -/
def substitution (expr : Expr) : Option Expr :=
  if expr.isPlace then
    (replacements.find? fun entry => entry.1 == expr).map Prod.snd
  else none

/-- The type of a field below the source of a replacement. -/
def replaceFieldType (receiver : Expr) (fld : Field) : Field :=
  if fld.typ.isRef && receiver.isPlace then
    match receiver.getBase with
    | some base =>
      match replacements.findIdx? fun entry => entry.1 == ofLocal base with
      | some index => patchField (substs.getD index none) true fld
      | none => fld
    | none => fld
  else fld

/-- The check of a quantifier: no replacement may have a bound variable at its root.
It panics, too, if a source or a destination has no root. -/
def noConflict (vars : List LocalVar) : Bool :=
  replacements.all fun entry =>
    match entry.1.getBase, entry.2.getBase with
    | some base, some base' => !vars.contains base && !vars.contains base'
    | _, _ => false

/-- One step of the traversal; `none` stands for a panic. -/
def replaceNode (node : Expr) (parts : List (Option Expr))
    (triggers : List (List (Option Expr))) : Option Expr :=
  match substitution replacements node with
  | some replacement => some replacement
  | none =>
    match node with
    | field base fld pos => do
      let parts ← parts.mapM id
      some (rebuild (field base (replaceFieldType replacements substs base fld) pos) parts)
    | forAll vars _ body pos =>
      if noConflict replacements vars then do
        let triggers ← triggers.mapM (List.mapM id)
        let parts ← parts.mapM id
        some (rebuild (forAll vars triggers body pos) parts)
      else none
    | exist vars _ body pos =>
      if noConflict replacements vars then do
        let triggers ← triggers.mapM (List.mapM id)
        let parts ← parts.mapM id
        some (rebuild (exist vars triggers body pos) parts)
      else none
    | node => do
      let parts ← parts.mapM id
      some (node.rebuild parts)

def foldReplaceMultiple (expr : Expr) : Option Expr := expr.para (replaceNode replacements substs)

end Multiple

/-- Replace several places at once; `none` stands for a panic. -/
def replaceMultiplePlaces (expr : Expr) (replacements : List (Expr × Expr)) : Option Expr := do
  let substs ← replacements.mapM fun entry => typaramSubsts entry.1 entry.2
  foldReplaceMultiple replacements substs expr

/-- Expressions built from locals, fields, constants, operators, conditionals, lets,
quantifiers and applications. -/
inductive Basic : Expr → Prop where
  | localVar (var : LocalVar) (pos : Position) : Basic (.localVar var pos)
  | field {base : Expr} (h : Basic base) (fld : Field) (pos : Position) :
      Basic (.field base fld pos)
  | const (value : Const) (pos : Position) : Basic (.const value pos)
  | unaryOp {arg : Expr} (op : UnaryOpKind) (h : Basic arg) (pos : Position) :
      Basic (.unaryOp op arg pos)
  | binOp {left right : Expr} (op : BinOpKind) (hleft : Basic left) (hright : Basic right)
      (pos : Position) : Basic (.binOp op left right pos)
  | containerOp {left right : Expr} (op : ContainerOpKind) (hleft : Basic left)
      (hright : Basic right) (pos : Position) : Basic (.containerOp op left right pos)
  | seq {elems : List Expr} (typ : Typ) (h : ∀ elem ∈ elems, Basic elem) (pos : Position) :
      Basic (.seq typ elems pos)
  | cond {guard thenExpr elseExpr : Expr} (hguard : Basic guard) (hthen : Basic thenExpr)
      (helse : Basic elseExpr) (pos : Position) : Basic (.cond guard thenExpr elseExpr pos)
  | letExpr {expr body : Expr} (var : LocalVar) (hexpr : Basic expr) (hbody : Basic body)
      (pos : Position) : Basic (.letExpr var expr body pos)
  | forAll {triggers : List (List Expr)} {body : Expr} (vars : List LocalVar)
      (htriggers : ∀ trigger ∈ triggers, ∀ part ∈ trigger, Basic part) (hbody : Basic body)
      (pos : Position) : Basic (.forAll vars triggers body pos)
  | exist {triggers : List (List Expr)} {body : Expr} (vars : List LocalVar)
      (htriggers : ∀ trigger ∈ triggers, ∀ part ∈ trigger, Basic part) (hbody : Basic body)
      (pos : Position) : Basic (.exist vars triggers body pos)
  | funcApp {args : List Expr} (name : String) (h : ∀ arg ∈ args, Basic arg)
      (formalArgs : List LocalVar) (typ : Typ) (pos : Position) :
      Basic (.funcApp name args formalArgs typ pos)
  | domainFuncApp {args : List Expr} (func : DomainFunc) (h : ∀ arg ∈ args, Basic arg)
      (pos : Position) : Basic (.domainFuncApp func args pos)
  | snapApp {expr : Expr} (h : Basic expr) (pos : Position) : Basic (.snapApp expr pos)

/-! One place. -/

/-- Outside of the quantifiers of the target a `let` binds it, and it is replaced in the body
of the `let`. -/
inductive LetCaptures (target : LocalVar) : Expr → Prop where
  | body {var : LocalVar} {expr body : Expr} {pos : Position} (hvar : (target == var) = true)
      (h : body.Reached target) : LetCaptures target (.letExpr var expr body pos)
  | child {expr child : Expr}
      (hquant : ∀ vars, expr.quantified = some vars → vars.contains target = false)
      (hchild : child ∈ expr.children) (h : LetCaptures target child) : LetCaptures target expr

section Single

variable {M : TotalModel} {reps : List LocalReplacement}

/-- No binder captures a variable of the replacement, and no `let` an occurrence of the
target. -/
structure Avoids (rep : LocalReplacement) (expr : Expr) : Prop where
  binders : ∀ var, expr.Binds var → ¬ rep.replacement.Occurs var
  lets : ¬ expr.LetCaptures rep.target

/-- A child that the traversal enters. -/
theorem Avoids.child {rep : LocalReplacement} {expr child : Expr} (h : Avoids rep expr)
    (hquant : ∀ vars, expr.quantified = some vars → vars.contains rep.target = false)
    (hchild : child ∈ expr.children) : Avoids rep child :=
  ⟨fun var hvar => h.binders var (hvar.mono (nodes_child hchild)),
    fun hlet => h.lets (.child hquant hchild hlet)⟩

theorem Avoids.part {rep : LocalReplacement} {expr child : Expr} (h : Avoids rep expr)
    (hnone : expr.quantified = none) (hchild : child ∈ expr.children) : Avoids rep child := by
  refine h.child (fun vars hvars => ?_) hchild
  rw [hnone] at hvars
  cases hvars

theorem beq_localVar_eq_false {expr : Expr} (h : expr.isLocal = false) (var : LocalVar)
    (pos : Position) : (expr == localVar var pos) = false := by
  cases expr <;> first
    | rfl
    | cases h

theorem foldReplaceList_eq_map (substs : Option Typaram.Substs) (target replacement : Expr)
    (exprs : List Expr) :
    foldReplaceList substs target replacement exprs =
      exprs.map fun expr => (foldReplace substs target replacement expr).1 := by
  induction exprs with
  | nil => rfl
  | cons expr rest ih => rw [foldReplaceList, ih, List.map_cons]

/-- The values around a binder that captures nothing. -/
theorem value_bind_assign {body : Expr} {vars : List LocalVar}
    (hbinders : ∀ rep ∈ reps, ∀ var, vars.contains var = true → ¬ rep.replacement.Occurs var)
    (htargets : ∀ rep ∈ reps, vars.contains rep.target = true → ¬ body.Reached rep.target)
    {values : List M.V} (hlength : vars.length = values.length) (state : M.State)
    (env : M.VarEnv) :
    M.value body state ((env.bind vars values).assign
      (reps.map (·.value state (env.bind vars values)))) =
    M.value body state ((env.assign (reps.map (·.value state env))).bind vars values) := by
  have hvalues : reps.map (·.value state (env.bind vars values)) =
      reps.map (·.value state env) := by
    apply List.map_congr_left
    intro rep hrep
    rw [LocalReplacement.value, LocalReplacement.value, TotalModel.value_bind (hbinders rep hrep)]
  rw [hvalues]
  apply TotalModel.value_congr
  intro var hvar
  symm
  apply TotalModel.VarEnv.get_bind_assign
  · rw [List.forall_mem_map]
    intro rep hrep hbound
    by_contra hsame
    exact htargets rep hrep hbound (hvar.congr (eq_true_of_ne_false hsame))
  · exact hlength

/-- The values around a `let`. -/
theorem value_set_assign {expr body : Expr} {var : LocalVar} {pos : Position}
    (h : ∀ rep ∈ reps, Avoids rep (.letExpr var expr body pos)) (value : M.V) (state : M.State)
    (env : M.VarEnv) :
    M.value body state ((env.set var value).assign
      (reps.map (·.value state (env.set var value)))) =
    M.value body state ((env.assign (reps.map (·.value state env))).set var value) := by
  refine @value_bind_assign M reps body [var] (fun rep hrep other hother => ?_)
    (fun rep hrep hbound hreached => ?_) [value] rfl state env
  · exact (h rep hrep).binders other ⟨_, self_mem_nodes _, hother⟩
  · exact (h rep hrep).lets (.body (by simpa using hbound) hreached)

variable {rep : LocalReplacement}

/-- The replacement of a variable is its substitution. -/
theorem value_foldReplace {expr : Expr} (hexpr : expr.Basic) (substs : Option Typaram.Substs)
    (h : Avoids rep expr) (state : M.State) (env : M.VarEnv) :
    M.value (foldReplace substs rep.entry.1 rep.replacement expr).1 state env =
      M.value expr state (env.assign [rep.value state env]) := by
  rw [LocalReplacement.entry]
  induction hexpr generalizing env with
  | localVar var varPos =>
    rw [foldReplace, TotalModel.value, TotalModel.VarEnv.get_assign_cons]
    have hsame : (localVar var varPos == localVar rep.target rep.pos) = (var == rep.target) := rfl
    rw [hsame, LocalReplacement.value]
    split
    · rfl
    · rfl
  | const value constPos => rfl
  | @field base hbase fld fldPos ih =>
    rw [foldReplace, beq_localVar_eq_false rfl, Bool.and_false, if_neg Bool.false_ne_true,
      TotalModel.value, TotalModel.value, ih (h.part rfl List.mem_cons_self), patchField_name]
  | unaryOp _ _ _ ih | snapApp _ _ ih =>
    rw [foldReplace, TotalModel.value, TotalModel.value, ih (h.part rfl List.mem_cons_self)]
  | binOp _ _ _ _ ihLeft ihRight | containerOp _ _ _ _ ihLeft ihRight =>
    rw [foldReplace, TotalModel.value, TotalModel.value,
      ihLeft (h.part rfl (by simp [children])), ihRight (h.part rfl (by simp [children]))]
  | seq _ _ _ ih | funcApp _ _ _ _ _ ih | domainFuncApp _ _ _ ih =>
    rw [foldReplace, TotalModel.value, TotalModel.value, foldReplaceList_eq_map,
      TotalModel.valueEach_eq_map, TotalModel.valueEach_eq_map, List.map_map]
    congr 1
    apply List.map_congr_left
    intro part hpart
    exact ih part hpart (h.part rfl hpart) env
  | cond _ _ _ condPos ihGuard ihThen ihElse =>
    rw [foldReplace, TotalModel.value, TotalModel.value,
      ihGuard (h.part rfl (by simp [children])), ihThen (h.part rfl (by simp [children])),
      ihElse (h.part rfl (by simp [children]))]
  | @letExpr expr body var _ _ letPos ihExpr ihBody =>
    rw [foldReplace, TotalModel.value, TotalModel.value,
      ihExpr (h.part rfl (by simp [children])), ihBody (h.part rfl (by simp [children]))]
    exact value_set_assign (List.forall_mem_singleton.mpr h) _ state env
  | @forAll triggers body vars _ _ quantPos _ ihBody
  | @exist triggers body vars _ _ quantPos _ ihBody =>
    rw [foldReplace]
    cases htarget : bindsBase (localVar rep.target rep.pos) vars with
    | true =>
      -- the quantifier is left alone
      rw [if_pos rfl]
      first
        | apply TotalModel.value_forAll_congr
        | apply TotalModel.value_exist_congr
      intro values hlength
      apply TotalModel.value_congr
      intro var _
      exact (TotalModel.VarEnv.get_bind_set_of_contains htarget hlength env _ var).symm
    | false =>
      rw [if_neg Bool.false_ne_true]
      first
        | apply TotalModel.value_forAll_congr
        | apply TotalModel.value_exist_congr
      intro values hlength
      rw [ihBody (h.child (fun _ hvars => Option.some.inj hvars ▸ htarget) List.mem_cons_self)]
      refine @value_bind_assign M [rep] body vars ?_ ?_ values hlength state env
      · exact List.forall_mem_singleton.mpr fun var hvar =>
          h.binders var ⟨_, self_mem_nodes _, hvar⟩
      · exact List.forall_mem_singleton.mpr fun hbound =>
          absurd (htarget.symm.trans hbound) Bool.false_ne_true

end Single

end Expr

end Prusti.Vir

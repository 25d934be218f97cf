/-
The replacement of several variables at once: it is the simultaneous
substitution, and it agrees with the replacement of a single one.
-/
import Prusti.Vir.ReplacedPlaces

namespace Prusti.Vir

open Prusti.Lib

namespace Expr

/-- No quantifier binds the root of a source or of a destination. -/
def QuantifiersAvoid (replacements : List (Expr × Expr)) (expr : Expr) : Prop :=
  ∀ node ∈ expr.nodes, ∀ vars, node.quantified = some vars → noConflict replacements vars = true

theorem QuantifiersAvoid.mono {replacements : List (Expr × Expr)} {expr other : Expr}
    (h : other.QuantifiersAvoid replacements) (hnodes : expr.nodes ⊆ other.nodes) :
    expr.QuantifiersAvoid replacements :=
  fun node hnode => h node (hnodes hnode)

theorem QuantifiersAvoid.child {replacements : List (Expr × Expr)} {expr child : Expr}
    (h : expr.QuantifiersAvoid replacements) (hchild : child ∈ expr.children) :
    child.QuantifiersAvoid replacements :=
  h.mono (nodes_child hchild)

/-- The nodes that the simultaneous replacement folds as every folder does. -/
def foldsByDefault : Expr → Bool
  | localVar _ _ | field _ _ _ | forAll _ _ _ _ | exist _ _ _ _ => false
  | _ => true

section Multiple

variable {M : TotalModel} {reps : List LocalReplacement}

theorem substitution_eq_none {expr : Expr} (h : expr.isLocal = false) :
    substitution (reps.map LocalReplacement.entry) expr = none := by
  rw [substitution]
  split
  · rw [Option.map_eq_none_iff, List.find?_eq_none]
    intro entry hentry
    obtain ⟨rep, _, rfl⟩ := List.mem_map.mp hentry
    rw [LocalReplacement.entry, BEq.comm, beq_localVar_eq_false h]
    exact Bool.false_ne_true
  · rfl

/-- What takes the place of a variable has the value that the variable is given. -/
theorem value_substitution (state : M.State) (env : M.VarEnv) (var : LocalVar) (pos : Position) :
    M.value ((substitution (reps.map LocalReplacement.entry) (localVar var pos)).getD
      (localVar var pos)) state env = (env.assign (reps.map (·.value state env))).get var := by
  have hplace : (localVar var pos).isPlace = true := rfl
  rw [substitution, if_pos hplace]
  induction reps with
  | nil => rfl
  | cons rep reps ih =>
    rw [List.map_cons, List.map_cons, TotalModel.VarEnv.get_assign_cons]
    have hsame : (rep.entry.1 == localVar var pos) = (var == rep.target) :=
      @BEq.comm _ _ _ rep.target var
    rw [List.find?_cons, hsame]
    cases htarget : var == rep.target with
    | true => exact (if_pos htarget).symm
    | false =>
      have hother : ¬ (var == (rep.value state env).1) = true := by
        rw [LocalReplacement.value, htarget]
        exact Bool.false_ne_true
      exact ih.trans (if_neg hother).symm

theorem foldReplaceMultiple_eq (replacements : List (Expr × Expr))
    (substs : List (Option Typaram.Substs)) (expr : Expr) :
    foldReplaceMultiple replacements substs expr = replaceNode replacements substs expr
        (expr.children.map (foldReplaceMultiple replacements substs))
        (expr.triggers.map (List.map (foldReplaceMultiple replacements substs))) :=
  para_eq _ expr

variable {substs : List (Option Typaram.Substs)}

variable {exprs parts : List Expr} {triggers : List (List Expr)} {expr : Expr}

/-- What the traversal makes of an expression. -/
def FoldsTo (reps : List LocalReplacement) (substs : List (Option Typaram.Substs))
    (expr replaced : Expr) : Prop :=
  foldReplaceMultiple (reps.map LocalReplacement.entry) substs expr = some replaced

theorem mapM_of_foldsTo (h : List.Forall₂ (FoldsTo reps substs) exprs parts) :
    (exprs.map (foldReplaceMultiple (reps.map LocalReplacement.entry) substs)).mapM id =
      some parts := by
  rw [mapM_eq_some_iff, List.forall₂_map_left_iff]
  exact h

theorem mapM_mapM_of_foldsTo {triggers' : List (List Expr)}
    (h : List.Forall₂ (List.Forall₂ (FoldsTo reps substs)) triggers triggers') :
    (triggers.map (List.map (foldReplaceMultiple (reps.map LocalReplacement.entry)
      substs))).mapM (List.mapM id) = some triggers' := by
  rw [mapM_eq_some_iff, List.forall₂_map_left_iff]
  exact h.imp fun _ _ => mapM_of_foldsTo

/-- A node whose parts are replaced is rebuilt. -/
theorem foldsTo_of_parts (hdefault : expr.foldsByDefault = true)
    (h : List.Forall₂ (FoldsTo reps substs) expr.children parts) :
    FoldsTo reps substs expr (expr.rebuild parts) := by
  have hparts := mapM_of_foldsTo h
  have hnone : substitution (reps.map LocalReplacement.entry) expr = none := by
    apply substitution_eq_none
    cases expr <;> first
      | rfl
      | cases hdefault
  rw [FoldsTo, foldReplaceMultiple_eq]
  cases expr with
  | field | forAll | exist | localVar => cases hdefault
  | _ => simp only [replaceNode, hnone, hparts, Option.bind_eq_bind, Option.bind_some]

theorem foldsTo_localVar (var : LocalVar) (pos : Position) :
    FoldsTo reps substs (localVar var pos) ((substitution
      (reps.map LocalReplacement.entry) (localVar var pos)).getD (localVar var pos)) := by
  rw [FoldsTo, foldReplaceMultiple_eq]
  unfold replaceNode
  cases substitution (reps.map LocalReplacement.entry) (localVar var pos) with
  | none => rfl
  | some replacement => rfl

theorem foldsTo_field {base part : Expr} (h : FoldsTo reps substs base part) (fld : Field)
    (pos : Position) :
    FoldsTo reps substs (field base fld pos) (field part
      (replaceFieldType (reps.map LocalReplacement.entry) substs base fld) pos) := by
  have hnone : substitution (reps.map LocalReplacement.entry) (field base fld pos) = none :=
    substitution_eq_none rfl
  rw [FoldsTo] at h
  rw [FoldsTo, foldReplaceMultiple_eq]
  simp only [replaceNode, hnone, children, List.map_cons, List.map_nil, h]
  rfl

theorem foldsTo_quantifier {vars : List LocalVar} {triggers' : List (List Expr)} {body body' : Expr}
    (hconflict : noConflict (reps.map LocalReplacement.entry) vars = true)
    (htriggers : List.Forall₂ (List.Forall₂ (FoldsTo reps substs)) triggers triggers')
    (hbody : FoldsTo reps substs body body') (pos : Position) :
    FoldsTo reps substs (forAll vars triggers body pos) (forAll vars triggers' body' pos) ∧
      FoldsTo reps substs (exist vars triggers body pos) (exist vars triggers' body' pos) := by
  have hforAll : substitution (reps.map LocalReplacement.entry)
      (forAll vars triggers body pos) = none := substitution_eq_none rfl
  have hexist : substitution (reps.map LocalReplacement.entry)
      (exist vars triggers body pos) = none := substitution_eq_none rfl
  rw [FoldsTo] at hbody
  constructor
  all_goals
    rw [FoldsTo, foldReplaceMultiple_eq]
    simp only [replaceNode, hforAll, hexist, hconflict, if_true, children, Expr.triggers,
      mapM_mapM_of_foldsTo htriggers, List.map_cons, List.map_nil, hbody]
    rfl

/-- Nothing is captured by replacing these variables. -/
def AvoidsAll (reps : List LocalReplacement) (expr : Expr) : Prop := ∀ rep ∈ reps, Avoids rep expr

/-- An expression and what the traversal makes of it, with its value where nothing is
captured. -/
structure Replaces (M : TotalModel) (reps : List LocalReplacement)
    (substs : List (Option Typaram.Substs)) (expr replaced : Expr) : Prop where
  fold : FoldsTo reps substs expr replaced
  value : AvoidsAll reps expr → ∀ (state : M.State) (env : M.VarEnv),
    M.value replaced state env = M.value expr state (env.assign (reps.map (·.value state env)))

theorem foldsTo_of_replaces (h : List.Forall₂ (Replaces M reps substs) exprs parts) :
    List.Forall₂ (FoldsTo reps substs) exprs parts :=
  h.imp fun _ _ hpart => hpart.fold

theorem valueEach_of_replaces (h : List.Forall₂ (Replaces M reps substs) exprs parts)
    (havoids : ∀ expr ∈ exprs, AvoidsAll reps expr) (state : M.State) (env : M.VarEnv) :
    M.valueEach parts state env =
      M.valueEach exprs state (env.assign (reps.map (·.value state env))) := by
  induction h with
  | nil => rfl
  | cons hfirst _ ih =>
    rw [List.forall_mem_cons] at havoids
    rw [TotalModel.valueEach, TotalModel.valueEach, hfirst.value havoids.1, ih havoids.2]

theorem replaces_of_parts (hdefault : expr.foldsByDefault = true)
    (h : List.Forall₂ (Replaces M reps substs) expr.children parts)
    (hvalue : AvoidsAll reps expr → ∀ (state : M.State) (env : M.VarEnv),
      M.value (expr.rebuild parts) state env =
        M.value expr state (env.assign (reps.map (·.value state env)))) :
    Replaces M reps substs expr (expr.rebuild parts) :=
  ⟨foldsTo_of_parts hdefault (foldsTo_of_replaces h), hvalue⟩

theorem replaceFieldType_name (replacements : List (Expr × Expr)) (receiver : Expr)
    (fld : Field) : (replaceFieldType replacements substs receiver fld).name = fld.name := by
  unfold replaceFieldType
  split
  · split
    · split
      · exact patchField_name _ _ _
      · rfl
    · rfl
  · rfl

/-- The triggers of a quantifier whose parts are replaced. -/
theorem exists_triggers
    (h : ∀ trigger ∈ triggers, ∀ part ∈ trigger, ∃ replaced, Replaces M reps substs part replaced) :
    ∃ triggers', List.Forall₂ (List.Forall₂ (FoldsTo reps substs)) triggers triggers' := by
  apply exists_forall₂
  intro trigger htrigger
  obtain ⟨parts, hparts⟩ := exists_forall₂ (h trigger htrigger)
  exact ⟨parts, foldsTo_of_replaces hparts⟩

theorem noConflict_target {replacements : List (Expr × Expr)} {vars : List LocalVar}
    (h : noConflict replacements vars = true) {rep : LocalReplacement}
    (hrep : rep.entry ∈ replacements) : vars.contains rep.target = false := by
  have hentry := List.all_eq_true.mp h _ hrep
  unfold LocalReplacement.entry at hentry
  simp only [getBase] at hentry
  split at hentry
  · next hbase _ =>
      cases hbase
      rw [Bool.and_eq_true, Bool.not_eq_true'] at hentry
      exact hentry.1
  · cases hentry

/-- Where the simultaneous replacement enters a node, no quantifier binds a target. -/
theorem AvoidsAll.child {child : Expr} (h : AvoidsAll reps expr)
    (hquant : expr.QuantifiersAvoid (reps.map LocalReplacement.entry))
    (hchild : child ∈ expr.children) : AvoidsAll reps child :=
  fun rep hrep => (h rep hrep).child
    (fun vars hvars => noConflict_target (hquant _ (self_mem_nodes _) vars hvars)
      (List.mem_map_of_mem hrep)) hchild

/-- The simultaneous replacement is the simultaneous substitution. -/
theorem exists_replaces (hexpr : expr.Basic)
    (hquant : expr.QuantifiersAvoid (reps.map LocalReplacement.entry)) :
    ∃ replaced, Replaces M reps substs expr replaced := by
  induction hexpr with
  | localVar var pos =>
    exact ⟨_, foldsTo_localVar var pos, fun _ state env => value_substitution state env var pos⟩
  | const value pos => exact ⟨_, replaces_of_parts rfl .nil fun _ _ _ => rfl⟩
  | @field base hbase fld pos ih =>
    obtain ⟨part, hpart⟩ := ih (hquant.child List.mem_cons_self)
    refine ⟨_, foldsTo_field hpart.fold fld pos, ?_⟩
    intro h state env
    rw [TotalModel.value, TotalModel.value, hpart.value (h.child hquant List.mem_cons_self),
      replaceFieldType_name]
  | unaryOp _ _ _ ih | snapApp _ _ ih =>
    obtain ⟨part, hpart⟩ := ih (hquant.child List.mem_cons_self)
    refine ⟨_, replaces_of_parts rfl (.cons hpart .nil) ?_⟩
    intro h state env
    simp only [rebuild, TotalModel.value, hpart.value (h.child hquant List.mem_cons_self)]
  | binOp _ _ _ _ ihLeft ihRight | containerOp _ _ _ _ ihLeft ihRight =>
    obtain ⟨left, hleft⟩ := ihLeft (hquant.child (by simp [children]))
    obtain ⟨right, hright⟩ := ihRight (hquant.child (by simp [children]))
    refine ⟨_, replaces_of_parts rfl (.cons hleft (.cons hright .nil)) ?_⟩
    intro h state env
    simp only [rebuild, TotalModel.value, hleft.value (h.child hquant (by simp [children])),
      hright.value (h.child hquant (by simp [children]))]
  | cond _ _ _ pos ihGuard ihThen ihElse =>
    obtain ⟨guard, hguard⟩ := ihGuard (hquant.child (by simp [children]))
    obtain ⟨thenExpr, hthen⟩ := ihThen (hquant.child (by simp [children]))
    obtain ⟨elseExpr, helse⟩ := ihElse (hquant.child (by simp [children]))
    refine ⟨_, replaces_of_parts rfl (.cons hguard (.cons hthen (.cons helse .nil))) ?_⟩
    intro h state env
    simp only [rebuild, TotalModel.value, hguard.value (h.child hquant (by simp [children])),
      hthen.value (h.child hquant (by simp [children])),
      helse.value (h.child hquant (by simp [children]))]
  | seq _ _ _ ih | funcApp _ _ _ _ _ ih | domainFuncApp _ _ _ ih =>
    obtain ⟨parts, hparts⟩ := exists_forall₂ fun part hpart => ih part hpart (hquant.child hpart)
    refine ⟨_, replaces_of_parts rfl hparts ?_⟩
    intro h state env
    simp only [rebuild, TotalModel.value,
      valueEach_of_replaces hparts fun part hpart => h.child hquant hpart]
  | @letExpr expr body var _ _ pos ihExpr ihBody =>
    obtain ⟨expr', hexpr'⟩ := ihExpr (hquant.child (by simp [children]))
    obtain ⟨body', hbody'⟩ := ihBody (hquant.child (by simp [children]))
    refine ⟨_, replaces_of_parts rfl (.cons hexpr' (.cons hbody' .nil)) ?_⟩
    intro h state env
    simp only [rebuild, TotalModel.value, hexpr'.value (h.child hquant (by simp [children])),
      hbody'.value (h.child hquant (by simp [children]))]
    exact value_set_assign h _ state env
  | @forAll triggers body vars _ _ pos ihTriggers ihBody
  | @exist triggers body vars _ _ pos ihTriggers ihBody =>
    have hconflict := hquant _ (self_mem_nodes _) vars rfl
    obtain ⟨triggers', htriggers⟩ := exists_triggers fun trigger htrigger part hpart =>
      ihTriggers trigger htrigger part hpart (hquant.mono (nodes_trigger htrigger hpart))
    obtain ⟨body', hbody⟩ := ihBody (hquant.child List.mem_cons_self)
    have hfold := foldsTo_quantifier hconflict htriggers hbody.fold pos
    first
      | refine ⟨_, hfold.1, fun h state env => TotalModel.value_forAll_congr ?_⟩
      | refine ⟨_, hfold.2, fun h state env => TotalModel.value_exist_congr ?_⟩
    intro values hlength
    rw [hbody.value (h.child hquant List.mem_cons_self)]
    refine value_bind_assign (fun rep hrep var hvar => ?_) (fun rep hrep hbound => ?_)
      hlength state env
    · exact (h rep hrep).binders var ⟨_, self_mem_nodes _, hvar⟩
    · rw [noConflict_target hconflict (List.mem_map_of_mem hrep)] at hbound
      cases hbound

end Multiple

/-! A single replacement. -/

section Singleton

variable {substs : Option Typaram.Substs} {target : LocalVar} {pos : Position}
  {replacement : Expr}

/-- A chain of fields is replaced at its root. -/
theorem foldReplace_snd {expr : Expr} (hexpr : expr.Basic) :
    (foldReplace substs (localVar target pos) replacement expr).2 =
      (expr.isPlace && expr.getBase.any (· == target)) := by
  induction hexpr with
  | localVar var varPos =>
    have hsame : (localVar var varPos == localVar target pos) = (var == target) := rfl
    rw [foldReplace, hsame]
    cases htarget : var == target with
    | true => simp [isPlace, getBase, htarget]
    | false => simp [isPlace, getBase, htarget]
  | field _ fld fldPos ih =>
    rw [foldReplace, beq_localVar_eq_false rfl, Bool.and_false, if_neg Bool.false_ne_true]
    exact ih
  | forAll | exist =>
    rw [foldReplace]
    split <;> rfl
  | _ => rfl

theorem patchField_false (fld : Field) : patchField substs false fld = fld := by
  unfold patchField
  split <;> rfl

theorem patchField_of_not_ref {fld : Field} (h : fld.typ.isRef = false) (subst : Bool) :
    patchField substs subst fld = fld := by
  unfold patchField
  split
  · next href =>
      rw [href] at h
      cases h
  · rfl

/-- Both traversals change the types of the same fields. -/
theorem replaceFieldType_singleton {base : Expr} (hbase : base.Basic) (fld : Field) :
    replaceFieldType [(localVar target pos, replacement)] [substs] base fld =
      patchField substs (foldReplace substs (localVar target pos) replacement base).2 fld := by
  rw [foldReplace_snd hbase, replaceFieldType]
  cases href : fld.typ.isRef with
  | false => exact (patchField_of_not_ref href _).symm
  | true =>
    cases hplace : base.isPlace with
    | false => exact (patchField_false fld).symm
    | true =>
      cases hroot : base.getBase with
      | none => exact (patchField_false fld).symm
      | some var =>
        have hsame : (localVar target pos == ofLocal var) = (var == target) := BEq.comm
        cases htarget : var == target with
        | true => simp [List.findIdx?_cons, hsame, htarget]
        | false => simp [List.findIdx?_cons, hsame, htarget, patchField_false]

/-- The two traversals agree on the nodes that are folded by default. -/
theorem foldsTo_children {expr : Expr} (hdefault : expr.foldsByDefault = true)
    (h : ∀ child ∈ expr.children, FoldsTo [⟨target, pos, replacement⟩] [substs] child
      (foldReplace substs (localVar target pos) replacement child).1) :
    FoldsTo [⟨target, pos, replacement⟩] [substs] expr (expr.rebuild (expr.children.map
      fun child => (foldReplace substs (localVar target pos) replacement child).1)) := by
  apply foldsTo_of_parts hdefault
  rw [List.forall₂_map_right_iff, List.forall₂_same]
  exact h

theorem foldReplaceTriggers_eq_map (triggers : List (List Expr)) :
    foldReplaceTriggers substs (localVar target pos) replacement triggers =
      triggers.map (foldReplaceList substs (localVar target pos) replacement) := by
  induction triggers with
  | nil => rfl
  | cons trigger rest ih => rw [foldReplaceTriggers, ih, List.map_cons]

theorem foldReplaceTriggers_forall₂ {triggers : List (List Expr)}
    (h : ∀ trigger ∈ triggers, ∀ part ∈ trigger, FoldsTo [⟨target, pos, replacement⟩] [substs]
      part (foldReplace substs (localVar target pos) replacement part).1) :
    List.Forall₂ (List.Forall₂ (FoldsTo [⟨target, pos, replacement⟩] [substs])) triggers
      (foldReplaceTriggers substs (localVar target pos) replacement triggers) := by
  rw [foldReplaceTriggers_eq_map, List.forall₂_map_right_iff, List.forall₂_same]
  intro trigger htrigger
  rw [foldReplaceList_eq_map, List.forall₂_map_right_iff, List.forall₂_same]
  exact h trigger htrigger

theorem bindsBase_of_noConflict {vars : List LocalVar}
    (h : noConflict [(localVar target pos, replacement)] vars = true) :
    bindsBase (localVar target pos) vars = false :=
  @noConflict_target [(localVar target pos, replacement)] vars h ⟨target, pos, replacement⟩
    List.mem_cons_self

/-- The simultaneous replacement of one variable is its replacement. -/
theorem foldsTo_singleton {expr : Expr} (hexpr : expr.Basic)
    (hquant : expr.QuantifiersAvoid [(localVar target pos, replacement)]) :
    FoldsTo [⟨target, pos, replacement⟩] [substs] expr
      (foldReplace substs (localVar target pos) replacement expr).1 := by
  induction hexpr with
  | localVar var varPos =>
    have hfold := @foldsTo_localVar [⟨target, pos, replacement⟩] [substs] var varPos
    have hsame : (localVar target pos == localVar var varPos) = (var == target) := BEq.comm
    have hsame' : (localVar var varPos == localVar target pos) = (var == target) := rfl
    rw [foldReplace, hsame']
    cases htarget : var == target with
    | true => simpa [substitution, isPlace, LocalReplacement.entry, hsame, htarget] using hfold
    | false => simpa [substitution, isPlace, LocalReplacement.entry, hsame, htarget] using hfold
  | @field base hbase fld fldPos ih =>
    have hfold := foldsTo_field (ih (hquant.child List.mem_cons_self)) fld fldPos
    rw [foldReplace, beq_localVar_eq_false rfl, Bool.and_false, if_neg Bool.false_ne_true,
      ← replaceFieldType_singleton hbase]
    exact hfold
  | const value constPos => exact foldsTo_children rfl (by simp [children])
  | unaryOp _ _ _ ih | snapApp _ _ ih =>
    apply foldsTo_children rfl
    simp only [children, List.forall_mem_singleton]
    exact ih (hquant.child List.mem_cons_self)
  | binOp _ _ _ _ ihLeft ihRight | containerOp _ _ _ _ ihLeft ihRight
  | letExpr _ _ _ _ ihLeft ihRight =>
    apply foldsTo_children rfl
    simp only [children, List.forall_mem_cons]
    exact ⟨ihLeft (hquant.child (by simp [children])),
      ihRight (hquant.child (by simp [children])), List.forall_mem_nil _⟩
  | cond _ _ _ condPos ihGuard ihThen ihElse =>
    apply foldsTo_children rfl
    simp only [children, List.forall_mem_cons]
    exact ⟨ihGuard (hquant.child (by simp [children])), ihThen (hquant.child (by simp [children])),
      ihElse (hquant.child (by simp [children])), List.forall_mem_nil _⟩
  | seq _ _ _ ih | funcApp _ _ _ _ _ ih | domainFuncApp _ _ _ ih =>
    rw [foldReplace, foldReplaceList_eq_map]
    exact foldsTo_children rfl fun part hpart => ih part hpart (hquant.child hpart)
  | forAll vars _ _ quantPos ihTriggers ihBody | exist vars _ _ quantPos ihTriggers ihBody =>
    have hconflict := hquant _ (self_mem_nodes _) vars rfl
    rw [foldReplace, bindsBase_of_noConflict hconflict, if_neg Bool.false_ne_true]
    have htriggers := foldReplaceTriggers_forall₂ fun trigger htrigger part hpart =>
      ihTriggers trigger htrigger part hpart (hquant.mono (nodes_trigger htrigger hpart))
    have hfold := @foldsTo_quantifier [⟨target, pos, replacement⟩] [substs] _ _ _ _ _
      hconflict htriggers (ihBody (hquant.child List.mem_cons_self)) quantPos
    first
      | exact hfold.1
      | exact hfold.2

end Singleton

end Expr

/-- The type parameters can be learned, no variable bound in the expression occurs in
the replacement, and no `let` captures an occurrence of the target. -/
structure LocalReplacement.Fits (rep : LocalReplacement) (expr : Expr) : Prop
    extends Expr.Avoids rep expr where
  learn : (Expr.typaramSubsts rep.entry.1 rep.entry.2).isSome = true

/-- Replacing places is substituting them, where no `let` captures a target. -/
theorem replacePlaces_substitute (M : TotalModel) {expr : Expr} (hexpr : expr.Basic) :
    (∀ rep : LocalReplacement, rep.Fits expr →
      ∃ replaced, expr.replacePlace rep.entry.1 rep.entry.2 = some replaced ∧
        ∀ (state : M.State) (env : M.VarEnv), M.value replaced state env =
          M.value expr state (env.set rep.target (M.value rep.replacement state env))) ∧
    (∀ reps : List LocalReplacement, (∀ rep ∈ reps, rep.Fits expr) →
      expr.QuantifiersAvoid (reps.map LocalReplacement.entry) →
      ∃ replaced, expr.replaceMultiplePlaces (reps.map LocalReplacement.entry) = some replaced ∧
        ∀ (state : M.State) (env : M.VarEnv), M.value replaced state env =
          M.value expr state (env.assign (reps.map (·.value state env)))) ∧
    ∀ rep : LocalReplacement, expr.QuantifiersAvoid [rep.entry] →
      expr.replaceMultiplePlaces [rep.entry] = expr.replacePlace rep.entry.1 rep.entry.2 := by
  refine ⟨?_, ?_, ?_⟩
  · intro rep hfits
    obtain ⟨substs, hsubsts⟩ := Option.isSome_iff_exists.mp hfits.learn
    refine ⟨_, by rw [Expr.replacePlace, hsubsts, Option.map_some], ?_⟩
    exact Expr.value_foldReplace hexpr substs hfits.toAvoids
  · intro reps hfits hquant
    have hlearn : ∀ entry ∈ reps.map LocalReplacement.entry,
        ∃ substs, Expr.typaramSubsts entry.1 entry.2 = some substs := by
      intro entry hentry
      obtain ⟨rep, hrep, rfl⟩ := List.mem_map.mp hentry
      exact Option.isSome_iff_exists.mp (hfits rep hrep).learn
    obtain ⟨substs, hsubsts⟩ := exists_mapM_eq_some hlearn
    have hreplaces : ∃ replaced, Expr.Replaces M reps substs expr replaced :=
      Expr.exists_replaces hexpr hquant
    obtain ⟨replaced, hreplaced⟩ := hreplaces
    refine ⟨replaced, ?_, hreplaced.value fun rep hrep => (hfits rep hrep).toAvoids⟩
    rw [Expr.replaceMultiplePlaces, hsubsts]
    exact hreplaced.fold
  · intro rep hquant
    rw [Expr.replaceMultiplePlaces, Expr.replacePlace]
    cases hsubsts : Expr.typaramSubsts rep.entry.1 rep.entry.2 with
    | none => simp [hsubsts]
    | some substs =>
      have hfold : Expr.FoldsTo [rep] [substs] expr
          (Expr.foldReplace substs rep.entry.1 rep.entry.2 expr).1 :=
        Expr.foldsTo_singleton hexpr hquant
      rw [List.mapM_cons, hsubsts]
      exact hfold

namespace Witness

def varX : LocalVar := ⟨"x", .int⟩

def varY : LocalVar := ⟨"y", .int⟩

def varI : LocalVar := ⟨"i", .int⟩

/-- Replace `x` by `y`. -/
def yForX : LocalReplacement := ⟨varX, .default, .ofLocal varY⟩

/-- `forall i :: x <= i`. -/
def lowerBound : Expr := .forAll [varI] [] (.leCmp (.ofLocal varX) (.ofLocal varI)) .default

/-- `let x == 1 in x`. -/
def letOne : Expr := .letExpr varX (.ofInt 1) (.ofLocal varX) .default

/-- Integers, with the truth values 0 and 1. -/
noncomputable def integers : TotalModel where
  V := Int
  State := Unit
  carrier _ := Set.univ
  ofProp p := by
    classical exact if p then 1 else 0
  holds value := value ≠ 0
  const
    | .int value => value
    | _ => 0
  field _ _ value := value
  variant _ _ value := value
  addrOf _ value := value
  snap _ value := value
  old _ state := state
  unary _ value := -value
  binary
    | .leCmp, left, right => if left ≤ right then 1 else 0
    | _, left, right => left + right
  container _ left _ := left
  seq _ := 0
  cond _ left _ := left
  func _ _ _ := 0
  domainFunc _ _ _ := 0
  inhaleExhale _ right := right
  wand _ _ _ _ := 0
  pred _ _ _ _ := 0
  accField _ _ _ _ := 0
  accOther _ _ _ := 0

/-- Every variable is 2. -/
def twos : integers.VarEnv := fun _ _ => (2 : Int)

theorem lowerBound_basic : lowerBound.Basic := by
  apply Expr.Basic.forAll
  · exact List.forall_mem_nil _
  · exact .binOp _ (.localVar _ _) (.localVar _ _) _

theorem yForX_fresh {expr : Expr} (h : "y" ∉ (expr.nodes.flatMap Expr.ownBinders).map (·.name))
    (var : LocalVar) (hvar : expr.Binds var) : ¬ yForX.replacement.Occurs var := by
  intro hoccurs
  have hname : var.name ∈ ["y"] := hoccurs.name_mem
  rw [List.mem_singleton] at hname
  exact h (hname ▸ hvar.name_mem)

/-- A quantifier of another variable is entered, and has no `let` in it. -/
theorem yForX_fits : yForX.Fits lowerBound where
  learn := rfl
  binders := yForX_fresh (by decide)
  lets h := by
    rcases h with _ | ⟨_, hbody, h⟩
    obtain rfl := List.mem_singleton.mp hbody
    rcases h with _ | ⟨_, hside, h⟩
    rcases List.mem_pair.mp hside with rfl | rfl
    · rcases h with _ | ⟨_, hnone, -⟩
      cases hnone
    · rcases h with _ | ⟨_, hnone, -⟩
      cases hnone

/-- A free variable of a quantified expression is replaced. -/
theorem lowerBound_substitute :
    ∃ replaced, lowerBound.replacePlace yForX.entry.1 yForX.entry.2 = some replaced ∧
      integers.value replaced () twos = integers.value lowerBound () (twos.set varX (2 : Int)) := by
  obtain ⟨replaced, hreplaced, hvalue⟩ :=
    (replacePlaces_substitute integers lowerBound_basic).1 yForX yForX_fits
  exact ⟨replaced, hreplaced, hvalue () twos⟩

/-- With `y` for `x` this becomes `let x == 1 in y`: the body is not left alone. -/
theorem letOne_not_substitute :
    letOne.Basic ∧ (∀ var, letOne.Binds var → ¬ yForX.replacement.Occurs var) ∧
      ¬∃ replaced, letOne.replacePlace yForX.entry.1 yForX.entry.2 = some replaced ∧
        integers.value replaced () twos = integers.value letOne () (twos.set varX (2 : Int)) := by
  refine ⟨.letExpr _ (.const _ _) (.localVar _ _) _, yForX_fresh (by decide), ?_⟩
  rintro ⟨replaced, hreplaced, hvalue⟩
  have hcaptured : letOne.replacePlace yForX.entry.1 yForX.entry.2 =
      some (.letExpr varX (.ofInt 1) (.ofLocal varY) .default) := rfl
  obtain rfl := Option.some.inj (hcaptured.symm.trans hreplaced)
  exact absurd (show (2 : Int) = 1 from hvalue) (by decide)

end Witness

end Prusti.Vir

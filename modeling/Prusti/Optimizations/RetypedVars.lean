/-
The methods whose variables can be declared as integers and booleans: what the collector
finds, and when the purified method has no such variable where a reference is needed.
-/
import Prusti.Optimizations.ReferenceUses

namespace Prusti.Optimizations.Purification

open Prusti.Vir Prusti.Cfg Prusti.Lib

variable {args : List Expr} {use : Stmt → Bool} {name : String} {method : CfgMethod}

section Collector

theorem unmentioned_append (exprs exprs' : List Expr) (vars : List String) :
    unmentioned (exprs ++ exprs') vars = unmentioned exprs' (unmentioned exprs vars) := by
  simp only [unmentioned, List.filter_filter, List.any_append, Bool.not_or]
  exact List.filter_congr fun name _ => Bool.and_comm _ _

@[simp] theorem unmentioned_nil (vars : List String) : unmentioned [] vars = vars := by
  simp [unmentioned]

theorem bareVars_eq (expr : Expr) :
    bareVars expr =
      match expr with
      | .localVar var _ => [var.name]
      | .field (.localVar _ _) _ _ => []
      | expr => expr.children.flatMap bareVars := by
  unfold bareVars
  rw [Expr.para_eq]
  cases expr with
  | field base fld pos => cases base <;> rfl
  | _ => rfl

theorem walkExpr_eq (expr : Expr) (vars : List String) :
    walkExpr expr vars =
      match expr with
      | .localVar var _ => vars.filter fun name => name != var.name
      | .field (.localVar _ _) _ _ => vars
      | expr => expr.children.foldl (fun vars child => walkExpr child vars) vars := by
  unfold walkExpr
  rw [Expr.para_eq]
  cases expr with
  | field base fld pos => cases base <;> rfl
  | _ => simp [Expr.children, List.foldl_map]

theorem foldl_unmentioned {exprs : List Expr}
    (h : ∀ expr ∈ exprs, ∀ vars, walkExpr expr vars = unmentioned [expr] vars)
    (vars : List String) :
    exprs.foldl (fun vars expr => walkExpr expr vars) vars = unmentioned exprs vars := by
  induction exprs generalizing vars with
  | nil => rw [List.foldl_nil, unmentioned_nil]
  | cons expr exprs ih =>
    rw [List.forall_mem_cons] at h
    rw [List.foldl_cons, h.1, ih h.2, ← unmentioned_append, List.singleton_append]

/-- The walker removes the variables that it meets without a field access. -/
theorem walkExpr_eq_unmentioned (expr : Expr) (vars : List String) :
    walkExpr expr vars = unmentioned [expr] vars := by
  induction expr using Expr.children_induction generalizing vars with
  | h expr ih _ =>
  have hnode : ∀ children : List Expr, bareVars expr = children.flatMap bareVars →
      unmentioned [expr] vars = unmentioned children vars := by
    intro children hbare
    refine List.filter_congr fun name _ => ?_
    rw [List.any_cons, List.any_nil, Bool.or_false, hbare, List.contains_flatMap]
  rw [walkExpr_eq]
  split
  · refine List.filter_congr fun name _ => ?_
    simp [bareVars_eq, bne, beq_eq_decide]
  · rw [hnode [] (bareVars_eq _), unmentioned_nil]
  · next hlocal hfield =>
      rw [foldl_unmentioned ih, hnode]
      rw [bareVars_eq]
      split
      · exact absurd rfl (hlocal _ _)
      · exact absurd rfl (hfield _ _ _ _)
      · rfl

mutual

theorem walkStmt_eq_unmentioned (stmt : Stmt) (vars : List String) :
    walkStmt stmt vars = unmentioned (stmt.nested.flatMap assignSource) vars := by
  cases stmt with
  | assign lhs rhs kind => exact walkExpr_eq_unmentioned rhs vars
  | packageMagicWand wand stmts =>
    rw [walkStmt, Stmt.nested, walkStmts_eq_unmentioned]
    rfl
  | ite guard thenStmts elseStmts =>
    rw [walkStmt, Stmt.nested, walkStmts_eq_unmentioned, walkStmts_eq_unmentioned,
      ← unmentioned_append, List.flatMap_cons, List.flatMap_append]
    rfl
  | _ => exact (unmentioned_nil vars).symm

theorem walkStmts_eq_unmentioned (stmts : List Stmt) (vars : List String) :
    walkStmts stmts vars = unmentioned ((Stmt.allNested stmts).flatMap assignSource) vars := by
  cases stmts with
  | nil => exact (unmentioned_nil vars).symm
  | cons stmt stmts =>
    rw [walkStmts, walkStmt_eq_unmentioned, walkStmts_eq_unmentioned,
      ← unmentioned_append, Stmt.allNested, List.flatMap_append]

end

theorem collect_eq (method : CfgMethod) : collect method = retypedVars method := by
  rw [collect, walkMethod, walkStmts_eq_unmentioned,
    foldl_unmentioned fun guard _ vars => walkExpr_eq_unmentioned guard vars,
    ← unmentioned_append, retypedVars]

end Collector

section Typed

variable (declared : List LocalVar) (predicates : List Predicate)

/-- The body of a predicate is well typed at the variable that is folded. -/
def typedBody (name : String) (args : List Expr) : Bool :=
  match args, findPredicate predicates name with
  | [.localVar var _], some body =>
    (body.replacePlace (Expr.ofLocal ⟨"self", .typedRef name⟩)
      (Expr.ofLocal var)).any (typed declared)
  | _, _ => true

def typedFold : Stmt → Bool
  | .fold name args _ _ _ | .unfold name args _ _ => typedBody declared predicates name args
  | _ => true

/-- What is used of a well-typed method. -/
structure WellTyped (method : CfgMethod) : Prop where
  nodup : (method.localVars.map (·.name)).Nodup
  exprs : ∀ expr ∈ method.stmtExprs, typed method.localVars expr = true
  folds : ∀ stmt ∈ Stmt.allNested method.stmts, typedFold method.localVars predicates stmt = true

variable {declared predicates}

theorem purify_eq (expr : Expr) :
    expr.purify =
      match expr with
      | .predicateAccessPredicate _ _ _ _ | .fieldAccessPredicate _ _ _ => Expr.ofBool true
      | expr => expr.rebuild (expr.children.map Expr.purify) := by
  unfold Expr.purify
  rw [Expr.para_eq]
  cases expr <;> rfl

theorem typedNode_rebuild {node : Expr} {parts : List Expr}
    (hlength : parts.length = node.children.length) (types : List (Option Typ)) :
    typedNode declared (node.rebuild parts) types = typedNode declared node types :=
  Expr.apply_rebuild (f := fun node => typedNode declared node types)
    (by intro node; cases node <;> rfl) hlength

/-- Access predicates are replaced by a boolean. -/
theorem typed_purify (expr : Expr) (htyped : typed declared expr = true) :
    expr.purify.staticType = expr.staticType ∧ typed declared expr.purify = true := by
  induction expr using Expr.children_induction with
  | h expr ih _ =>
  rw [typed_iff] at htyped
  obtain ⟨hnode, hchildren⟩ := htyped
  rw [purify_eq]
  split
  · exact ⟨rfl, rfl⟩
  · exact ⟨rfl, rfl⟩
  · have hlength : (expr.children.map Expr.purify).length = expr.children.length :=
      List.length_map _
    have htypes : (expr.children.map Expr.purify).map Expr.staticType =
        expr.children.map Expr.staticType := by
      rw [List.map_map]
      exact List.map_congr_left fun child hchild => (ih child hchild (hchildren child hchild)).1
    refine ⟨?_, ?_⟩
    · rw [staticType_rebuild hlength, htypes, ← Expr.staticType_eq]
    · rw [typed_iff, Expr.children_rebuild hlength, htypes, typedNode_rebuild hlength,
        List.forall_mem_map]
      exact ⟨hnode, fun child hchild => (ih child hchild (hchildren child hchild)).2⟩

end Typed

section Statements

variable {targets : List String} {declared : List LocalVar} {predicates : List Predicate}
  {signature : Signature}

theorem Folds.exists_iff {expr folded : Expr} (h : Folds targets expr folded) {α : Type}
    {build : Expr → α} {use : α → Bool} {need : Bool}
    (huse : use (build folded) = refUse targets.contains folded need) :
    (∃ out, (foldExpr targets expr).map build = some out ∧ use out = false) ↔
      keptUse targets expr need = false := by
  rw [h.fold, Option.map_some, ← h.use need, ← huse]
  simp

section

variable (hdeclared : Declares targets declared)

include hdeclared

/-- The source that is assigned to a purified variable is the value of the old one. -/
theorem exists_folds_assignedSource {lhs rhs source : Expr}
    (hsource : assignedSource targets lhs rhs = some source) (htyped : typed declared rhs = true) :
    ∃ folded, Folds targets source folded := by
  obtain ⟨folded, hfolds⟩ := exists_folds hdeclared rhs htyped
  rw [assignedSource] at hsource
  split at hsource
  · obtain ⟨fld, hfld, rfl⟩ := Option.map_eq_some_iff.mp hsource
    obtain ⟨typ, -, hvalue⟩ := Option.bind_eq_some_iff.mp hfld
    exact hfolds.field fun _ => typ_of_valueField hvalue
  · cases hsource
    exact ⟨folded, hfolds⟩

theorem exists_foldArgs_iff (htyped : ∀ arg ∈ args, typed declared arg = true)
    (kept : List (Bool → Bool) → Bool) {build : List Expr → Stmt}
    (huse : ∀ parts, use (build parts) = kept (parts.map (refUse targets.contains))) :
    (∃ out, (args.mapM (foldExpr targets)).map build = some out ∧ use out = false) ↔
      kept (args.map (keptUse targets)) = false := by
  obtain ⟨parts, hparts⟩ := exists_forall₂ fun arg harg =>
    exists_folds hdeclared arg (htyped arg harg)
  rw [Folds.mapM hparts, Option.map_some, ← map_refUse_of_folds hparts, ← huse]
  simp

/-- What is left of the uses in a fold or an unfold. -/
theorem exists_foldFacts_iff {var : LocalVar} (hargs : foldedVar targets args = some var)
    (htyped : typedBody declared predicates name args = true) {build : Expr → Stmt}
    {text : String} (huse : ∀ expr, use (build expr) = refUse targets.contains expr false)
    (htext : use (.comment text) = false) :
    (∃ out, foldFacts targets predicates name var build text = some out ∧ use out = false) ↔
      keptFold targets predicates name args = false := by
  rw [foldFacts, keptFold, hargs]
  obtain ⟨varPos, rfl⟩ : ∃ varPos, args = [.localVar var varPos] := by
    unfold foldedVar at hargs
    split at hargs
    · split at hargs
      · cases hargs
        exact ⟨_, rfl⟩
      · cases hargs
    · cases hargs
  cases hbody : findPredicate predicates name with
  | none =>
    simp only [predicateFacts, hbody]
    simpa using htext
  | some body =>
    simp only [typedBody, hbody, Option.any_eq_true] at htyped
    obtain ⟨inner, hinner, htyped⟩ := htyped
    obtain ⟨folded, hfolds⟩ := exists_folds hdeclared _ (typed_purify inner htyped).2
    simp only [predicateFacts, hbody, hinner, Option.map_some, Option.any_some]
    exact hfolds.exists_iff (huse folded)

theorem exists_keptFold_iff (hargs : ∀ arg ∈ args, typed declared arg = true)
    (htyped : typedBody declared predicates name args = true) {build : Expr → Stmt}
    {text : String} {rebuild : List Expr → Stmt}
    (huse : ∀ expr, use (build expr) = refUse targets.contains expr false)
    (htext : use (.comment text) = false)
    (hrebuild : ∀ args, use (rebuild args) = args.any fun arg => refUse targets.contains arg true) :
    (∃ out, (match foldedVar targets args with
        | some var => foldFacts targets predicates name var build text
        | none => (args.mapM (foldExpr targets)).map rebuild) = some out ∧ use out = false) ↔
      keptFold targets predicates name args = false := by
  split
  · next var hvar => exact exists_foldFacts_iff hdeclared hvar htyped huse htext
  · next hnone =>
      have hkept : keptFold targets predicates name args =
          (args.map (keptUse targets)).any fun part => part true := by
        rw [keptFold, hnone, List.any_map]
        rfl
      rw [hkept]
      refine exists_foldArgs_iff hdeclared hargs (fun parts => parts.any fun part => part true) ?_
      intro parts
      rw [hrebuild, List.any_map]
      rfl

end

/-- A result that is made of two parts has no use if the parts have none. -/
theorem exists_pair_iff {α β γ : Type} {first : Option α} {second : Option β}
    {build : α → β → γ} {use : γ → Bool} {useFirst : α → Bool} {useSecond : β → Bool}
    {keptFirst keptSecond : Bool}
    (hfirst : (∃ out, first = some out ∧ useFirst out = false) ↔ keptFirst = false)
    (hsecond : (∃ out, second = some out ∧ useSecond out = false) ↔ keptSecond = false)
    (huse : ∀ out out', use (build out out') = (useFirst out || useSecond out')) :
    (∃ result, (first.bind fun out => second.bind fun out' => some (build out out')) =
        some result ∧ use result = false) ↔ (keptFirst || keptSecond) = false := by
  rw [Bool.or_eq_false_iff, ← hfirst, ← hsecond]
  constructor
  · rintro ⟨result, hresult, hnone⟩
    obtain ⟨out, hout, hresult⟩ := Option.bind_eq_some_iff.mp hresult
    obtain ⟨out', hout', hresult⟩ := Option.bind_eq_some_iff.mp hresult
    cases hresult
    rw [huse, Bool.or_eq_false_iff] at hnone
    exact ⟨⟨out, hout, hnone.1⟩, out', hout', hnone.2⟩
  · rintro ⟨⟨out, hout, hnone⟩, out', hout', hnone'⟩
    refine ⟨build out out', ?_, ?_⟩
    · rw [hout, hout']
      rfl
    · rw [huse, hnone, hnone']
      rfl

mutual

/-- A statement is purified without a use as a reference exactly if none is left of the
uses in it. -/
theorem exists_foldStmt_iff (hdeclared : Declares targets declared) (stmt : Stmt)
    (hexprs : ∀ expr ∈ stmt.exprs, typed declared expr = true)
    (hfolds : ∀ inner ∈ stmt.nested, typedFold declared predicates inner = true) :
    (∃ out, foldStmt targets predicates stmt = some out ∧
        stmtUse signature targets.contains out = false) ↔
      keptStmt targets predicates signature stmt = false := by
  cases stmt with
  | comment | label | beginFrame | endFrame | expireBorrows => simp [foldStmt, keptStmt, stmtUse]
  | inhale expr | exhale expr | assert expr | obtain expr | applyMagicWand expr
  | downcast expr =>
    obtain ⟨folded, hfold⟩ := exists_folds hdeclared expr (hexprs expr List.mem_cons_self)
    exact hfold.exists_iff rfl
  | methodCall name args vars =>
    rw [foldStmt, keptStmt]
    split
    · simp [stmtUse]
    · refine exists_foldArgs_iff hdeclared hexprs
        (fun parts => usesAt parts ((signature name).1.map Typ.isRef) ||
          usesAt (vars.map fun var need => need && targets.contains var.name)
            ((signature name).2.map Typ.isRef)) ?_
      exact fun _ => rfl
  | assign lhs rhs kind =>
    have hlhs := hexprs lhs List.mem_cons_self
    have hrhs := hexprs rhs (List.mem_cons_of_mem _ List.mem_cons_self)
    obtain ⟨lhs', hlhs'⟩ := exists_folds hdeclared lhs hlhs
    rw [foldStmt, keptStmt]
    cases hsource : assignedSource targets lhs rhs with
    | none => simp
    | some source =>
      obtain ⟨source', hsource'⟩ := exists_folds_assignedSource hdeclared hsource hrhs
      simp [hlhs'.fold, hsource'.fold, stmtUse, hlhs'.use, hsource'.use, hlhs'.reference,
        hsource'.reference]
  | transferPerm lhs rhs unchecked =>
    have hlhs := hexprs lhs List.mem_cons_self
    have hrhs := hexprs rhs (List.mem_cons_of_mem _ List.mem_cons_self)
    obtain ⟨lhs', hlhs'⟩ := exists_folds hdeclared lhs hlhs
    obtain ⟨rhs', hrhs'⟩ := exists_folds hdeclared rhs hrhs
    simp [foldStmt, keptStmt, hlhs'.fold, hrhs'.fold, stmtUse, hlhs'.use, hrhs'.use,
      hlhs'.reference, hrhs'.reference]
  | fold name args perm index pos =>
    exact exists_keptFold_iff hdeclared hexprs (hfolds _ List.mem_cons_self) (fun _ => rfl)
      rfl fun _ => rfl
  | unfold name args perm index =>
    exact exists_keptFold_iff hdeclared hexprs (hfolds _ List.mem_cons_self) (fun _ => rfl)
      rfl fun _ => rfl
  | packageMagicWand wand stmts label vars pos =>
    obtain ⟨wand', hwand⟩ := exists_folds hdeclared wand (hexprs wand List.mem_cons_self)
    have hstmts := exists_foldStmts_iff hdeclared stmts
      (fun expr hexpr => hexprs expr (List.mem_cons_of_mem _ hexpr))
      fun inner hinner => hfolds inner (List.mem_cons_of_mem _ hinner)
    have hfirst : (∃ out, foldExpr targets wand = some out ∧
        refUse targets.contains out false = false) ↔ keptUse targets wand false = false := by
      rw [hwand.fold, ← hwand.use]
      simp
    exact exists_pair_iff hfirst hstmts fun _ _ => rfl
  | ite guard thenStmts elseStmts =>
    obtain ⟨guard', hguard⟩ := exists_folds hdeclared guard (hexprs guard List.mem_cons_self)
    have hthen := exists_foldStmts_iff hdeclared thenStmts
      (fun expr hexpr => hexprs expr (List.mem_cons_of_mem _ (List.mem_append_left _ hexpr)))
      fun inner hinner => hfolds inner (List.mem_cons_of_mem _ (List.mem_append_left _ hinner))
    have helse := exists_foldStmts_iff hdeclared elseStmts
      (fun expr hexpr => hexprs expr (List.mem_cons_of_mem _ (List.mem_append_right _ hexpr)))
      fun inner hinner => hfolds inner (List.mem_cons_of_mem _ (List.mem_append_right _ hinner))
    have hfirst : (∃ out, foldStmts targets predicates thenStmts = some out ∧
        (refUse targets.contains guard' false || stmtsUse signature targets.contains out) = false) ↔
        (keptUse targets guard false ||
          keptStmts targets predicates signature thenStmts) = false := by
      rw [Bool.or_eq_false_iff, ← hthen, ← hguard.use]
      simp only [Bool.or_eq_false_iff]
      exact ⟨fun ⟨out, hout, huse, huse'⟩ => ⟨huse, out, hout, huse'⟩,
        fun ⟨huse, out, hout, huse'⟩ => ⟨out, hout, huse, huse'⟩⟩
    rw [keptStmt, foldStmt, hguard.fold]
    exact exists_pair_iff hfirst helse fun _ _ => rfl

theorem exists_foldStmts_iff (hdeclared : Declares targets declared) (stmts : List Stmt)
    (hexprs : ∀ expr ∈ Stmt.allExprs stmts, typed declared expr = true)
    (hfolds : ∀ inner ∈ Stmt.allNested stmts, typedFold declared predicates inner = true) :
    (∃ out, foldStmts targets predicates stmts = some out ∧
        stmtsUse signature targets.contains out = false) ↔
      keptStmts targets predicates signature stmts = false := by
  cases stmts with
  | nil => simp [foldStmts, keptStmts, stmtsUse]
  | cons stmt stmts =>
    have hstmt := exists_foldStmt_iff hdeclared stmt
      (fun expr hexpr => hexprs expr (List.mem_append_left _ hexpr))
      fun inner hinner => hfolds inner (List.mem_append_left _ hinner)
    have hstmts := exists_foldStmts_iff hdeclared stmts
      (fun expr hexpr => hexprs expr (List.mem_append_right _ hexpr))
      fun inner hinner => hfolds inner (List.mem_append_right _ hinner)
    exact exists_pair_iff hstmt hstmts fun _ _ => rfl

end

theorem stmtsUse_append (vars : String → Bool) (front back : List Stmt) :
    stmtsUse signature vars (front ++ back) =
      (stmtsUse signature vars front || stmtsUse signature vars back) := by
  induction front with
  | nil => rfl
  | cons stmt front ih => rw [List.cons_append, stmtsUse, stmtsUse, ih, Bool.or_assoc]

theorem keptStmts_append (front back : List Stmt) :
    keptStmts targets predicates signature (front ++ back) =
      (keptStmts targets predicates signature front ||
        keptStmts targets predicates signature back) := by
  induction front with
  | nil => rfl
  | cons stmt front ih => rw [List.cons_append, keptStmts, keptStmts, ih, Bool.or_assoc]

theorem exists_foldBlocks_iff (hdeclared : Declares targets declared) (blocks : List CfgBlock)
    (hexprs : ∀ expr ∈ Stmt.allExprs (blocks.flatMap (·.stmts)), typed declared expr = true)
    (hfolds : ∀ inner ∈ Stmt.allNested (blocks.flatMap (·.stmts)),
      typedFold declared predicates inner = true) :
    (∃ out, blocks.mapM (foldBlock targets predicates) = some out ∧
        stmtsUse signature targets.contains (out.flatMap (·.stmts)) = false) ↔
      keptStmts targets predicates signature (blocks.flatMap (·.stmts)) = false := by
  induction blocks with
  | nil => simp [keptStmts, stmtsUse]
  | cons block blocks ih =>
    rw [List.flatMap_cons, Stmt.allExprs_append] at hexprs
    rw [List.flatMap_cons, Stmt.allNested_append] at hfolds
    have hblock : (∃ out, foldStmts targets predicates block.stmts = some out ∧
          stmtsUse signature targets.contains out = false) ↔ _ :=
      exists_foldStmts_iff hdeclared block.stmts
        (fun expr hexpr => hexprs expr (List.mem_append_left _ hexpr))
        fun inner hinner => hfolds inner (List.mem_append_left _ hinner)
    have hblocks := ih (fun expr hexpr => hexprs expr (List.mem_append_right _ hexpr))
      fun inner hinner => hfolds inner (List.mem_append_right _ hinner)
    have hfirst : (∃ out, foldBlock targets predicates block = some out ∧
        stmtsUse signature targets.contains out.stmts = false) ↔
        keptStmts targets predicates signature block.stmts = false := by
      rw [← hblock, foldBlock]
      simp
    rw [List.flatMap_cons, keptStmts_append, List.mapM_cons]
    refine exists_pair_iff hfirst hblocks fun out outs => ?_
    rw [List.flatMap_cons, stmtsUse_append]

/-- The guards are those of before. -/
theorem guards_foldBlocks {blocks blocks' : List CfgBlock}
    (h : blocks.mapM (foldBlock targets predicates) = some blocks') :
    blocks'.flatMap (·.successor.guards) = blocks.flatMap (·.successor.guards) := by
  have hall := mapM_eq_some_iff.mp h
  clear h
  induction hall with
  | nil => rfl
  | cons hblock _ ih =>
    obtain ⟨stmts, -, rfl⟩ := Option.map_eq_some_iff.mp hblock
    rw [List.flatMap_cons, List.flatMap_cons, ih]

end Statements

section Methods

variable {targets : List String}

theorem mem_changed_iff {vars vars' : List LocalVar}
    (h : List.Forall₂ (fun var var' => declareVar targets var = some var') vars vars')
    (hsupported : ∀ var ∈ vars, targets.contains var.name = true → isSupported var.typ = true) :
    name ∈ (vars.zip vars').filterMap (fun vars =>
        if vars.1.typ.isRef && !vars.2.typ.isRef then some vars.1.name else none) ↔
      ∃ var ∈ vars, var.name = name ∧ targets.contains name = true := by
  induction h with
  | nil => simp
  | @cons var var' vars vars' hvar _ ih =>
    rw [List.forall_mem_cons] at hsupported
    have hchanged : (var.typ.isRef && !var'.typ.isRef) = targets.contains var.name := by
      rw [declareVar] at hvar
      split at hvar
      · next htarget =>
          obtain ⟨fld, -, htranslate, htyp⟩ := exists_valueField (hsupported.1 htarget)
          rw [htranslate] at hvar
          cases hvar
          rw [isRef_of_isSupported (hsupported.1 htarget), isRef_eq_false htyp, htarget]
          rfl
      · next htarget =>
          cases hvar
          rw [Bool.and_not_self]
          exact (Bool.eq_false_of_not_eq_true htarget).symm
    rw [List.zip_cons_cons, List.filterMap_cons, hchanged, List.exists_mem_cons_iff,
      ← ih hsupported.2]
    by_cases htarget : targets.contains var.name = true
    · rw [if_pos htarget]
      simp only [List.mem_cons]
      constructor
      · rintro (rfl | hmem)
        · exact .inl ⟨rfl, htarget⟩
        · exact .inr hmem
      · rintro (⟨rfl, -⟩ | hmem)
        · exact .inl rfl
        · exact .inr hmem
    · rw [if_neg htarget]
      constructor
      · exact .inr
      · rintro (⟨rfl, htarget'⟩ | hmem)
        · exact absurd htarget' htarget
        · exact hmem

theorem contains_retypedVars (h : (retypedVars method).contains name = true) :
    ∃ var ∈ method.localVars, var.name = name ∧ isSupported var.typ = true := by
  rw [List.contains_iff_mem, retypedVars, unmentioned, List.mem_filter, candidates,
    List.mem_map] at h
  obtain ⟨⟨var, hvar, rfl⟩, -⟩ := h
  rw [List.mem_filter] at hvar
  exact ⟨var, hvar.1, rfl, hvar.2⟩

theorem isSupported_of_retyped (hnodup : (method.localVars.map (·.name)).Nodup) {var : LocalVar}
    (hvar : var ∈ method.localVars) (h : (retypedVars method).contains var.name = true) :
    isSupported var.typ = true := by
  obtain ⟨other, hother, hname, hsupported⟩ := contains_retypedVars h
  rwa [← List.inj_on_of_nodup_map hnodup hother hvar hname]

theorem exists_declareVars (hnodup : (method.localVars.map (·.name)).Nodup) :
    ∃ localVars, method.localVars.mapM (declareVar (retypedVars method)) = some localVars := by
  refine exists_mapM_eq_some fun var hvar => ?_
  rw [declareVar]
  split
  · next htarget =>
      obtain ⟨fld, -, htranslate, -⟩ :=
        exists_valueField (isSupported_of_retyped hnodup hvar htarget)
      exact ⟨_, by rw [htranslate, Option.map_some]⟩
  · exact ⟨var, rfl⟩

/-- The variables that change their type are those that the collector finds. -/
theorem contains_changedVars (hnodup : (method.localVars.map (·.name)).Nodup)
    {localVars : List LocalVar}
    (h : method.localVars.mapM (declareVar (retypedVars method)) = some localVars)
    (basicBlocks : List CfgBlock) :
    (changedVars method
      { method with localVars := localVars, basicBlocks := basicBlocks }).contains =
        (retypedVars method).contains := by
  funext name
  rw [Bool.eq_iff_iff, List.contains_iff_mem, changedVars,
    mem_changed_iff (mapM_eq_some_iff.mp h) fun var => isSupported_of_retyped hnodup]
  constructor
  · rintro ⟨var, -, -, htarget⟩
    exact htarget
  · intro htarget
    obtain ⟨var, hvar, hname, -⟩ := contains_retypedVars htarget
    exact ⟨var, hvar, hname, htarget⟩

variable {predicates : List Predicate} {signature : Signature}

/-- No variable whose type was changed stands where a reference is needed. -/
def NoReferenceUse (signature : Signature) (before after : CfgMethod) : Prop :=
  methodUse signature (changedVars before after).contains after = false

theorem exists_purifyMethod_iff (htyped : WellTyped predicates method) :
    (∃ out, purifyMethod predicates method = some out ∧ NoReferenceUse signature method out) ↔
      keptMethod predicates signature method = false := by
  have hdeclared : Declares (retypedVars method) method.localVars :=
    fun name => contains_retypedVars
  obtain ⟨localVars, hlocals⟩ := exists_declareVars htyped.nodup
  have hblocks : (∃ out,
        method.basicBlocks.mapM (foldBlock (retypedVars method) predicates) = some out ∧
        stmtsUse signature (retypedVars method).contains (out.flatMap (·.stmts)) = false) ↔ _ :=
    exists_foldBlocks_iff hdeclared method.basicBlocks htyped.exprs htyped.folds
  rw [keptMethod, Bool.or_eq_false_iff, CfgMethod.stmts, ← hblocks]
  simp only [purifyMethod, collect_eq, hlocals, Option.bind_eq_bind, Option.bind_some]
  constructor
  · rintro ⟨out, hout, hnone⟩
    obtain ⟨basicBlocks, hfold, hout⟩ := Option.bind_eq_some_iff.mp hout
    cases hout
    rw [NoReferenceUse, contains_changedVars htyped.nodup hlocals, methodUse,
      Bool.or_eq_false_iff] at hnone
    have hguards := hnone.2
    rw [CfgMethod.guards, guards_foldBlocks hfold] at hguards
    exact ⟨⟨basicBlocks, hfold, hnone.1⟩, hguards⟩
  · rintro ⟨⟨basicBlocks, hfold, hnone⟩, hguards⟩
    refine ⟨_, by rw [hfold]; rfl, ?_⟩
    rw [NoReferenceUse, contains_changedVars htyped.nodup hlocals, methodUse, Bool.or_eq_false_iff]
    refine ⟨hnone, ?_⟩
    rw [CfgMethod.guards, guards_foldBlocks hfold]
    exact hguards

/-- The purified methods have no variable of a changed type where a reference is needed
exactly if the pass leaves none of the uses of these variables as references. -/
theorem purifyMethods_noReferenceUse_iff (signature : Signature) (predicates : List Predicate)
    (methods : List CfgMethod) (htyped : ∀ method ∈ methods, WellTyped predicates method) :
    (∃ outs, purifyMethods methods predicates = some outs ∧
        List.Forall₂ (NoReferenceUse signature) methods outs) ↔
      ∀ method ∈ methods, keptMethod predicates signature method = false := by
  have hall : (∀ method ∈ methods, keptMethod predicates signature method = false) ↔
      ∀ method ∈ methods, ∃ out, purifyMethod predicates method = some out ∧
        NoReferenceUse signature method out :=
    forall₂_congr fun method hmethod => (exists_purifyMethod_iff (htyped method hmethod)).symm
  rw [hall, purifyMethods]
  constructor
  · rintro ⟨outs, houts, huses⟩ method hmethod
    obtain ⟨idx, hidx⟩ := List.mem_iff_getElem?.mp hmethod
    obtain ⟨out, hout, hfold⟩ := forall₂_getElem? (mapM_eq_some_iff.mp houts) hidx
    obtain ⟨out', hout', huse⟩ := forall₂_getElem? huses hidx
    cases hout.symm.trans hout'
    exact ⟨out, hfold, huse⟩
  · intro h
    obtain ⟨outs, houts⟩ := exists_forall₂ h
    exact ⟨outs, mapM_eq_some_iff.mpr (houts.imp fun _ _ h => h.1), houts.imp fun _ _ h => h.2⟩

end Methods

namespace Witness

/-- A method with one block and a variable that holds an integer. -/
def oneBlock (stmts : List Stmt) : CfgMethod where
  uuid := 0
  methodName := "m"
  formalArgCount := 0
  formalReturns := []
  localVars := [⟨"_1", .typedRef "i32"⟩]
  labels := []
  reservedLabels := []
  basicBlocks := [⟨stmts, .ret⟩]
  basicBlocksLabels := ["start"]
  freshLabelIndex := 0

def intVar : Expr := Expr.ofLocal ⟨"_1", .typedRef "i32"⟩

def valInt : Expr := intVar.mkField ⟨"val_int", .int⟩

def takesInt : Signature := fun _ => ([.typedRef "i32"], [])

/-- The reference is passed to a method. -/
def passed : CfgMethod := oneBlock [.methodCall "callee" [intVar] []]

def assigned : CfgMethod := oneBlock [.assign valInt (Expr.ofInt 7) .copy]

theorem wellTyped_oneBlock {stmts : List Stmt}
    (hexprs : (Stmt.allExprs stmts).all (typed (oneBlock stmts).localVars) = true)
    (hfolds : (Stmt.allNested stmts).all
      (typedFold (oneBlock stmts).localVars []) = true) : WellTyped [] (oneBlock stmts) where
  nodup := by simp [oneBlock]
  exprs := by simpa [CfgMethod.stmtExprs, CfgMethod.stmts, oneBlock] using hexprs
  folds := by simpa [CfgMethod.stmts, oneBlock] using hfolds

/-- The argument of the call stays, and it is an integer now. -/
theorem passed_not_noReferenceUse :
    WellTyped [] passed ∧
      ¬ ∃ outs, purifyMethods [passed] [] = some outs ∧
        List.Forall₂ (NoReferenceUse takesInt) [passed] outs := by
  refine ⟨wellTyped_oneBlock (by decide) (by decide), ?_⟩
  rintro ⟨outs, houts, huses⟩
  cases houts
  obtain ⟨huse, -⟩ := List.forall₂_cons.mp huses
  revert huse
  unfold NoReferenceUse
  decide

theorem assigned_noReferenceUse_iff :
    (∃ outs, purifyMethods [assigned] [] = some outs ∧
        List.Forall₂ (NoReferenceUse takesInt) [assigned] outs) ↔
      ∀ method ∈ [assigned], keptMethod [] takesInt method = false :=
  purifyMethods_noReferenceUse_iff takesInt [] [assigned] (by
    intro method hmethod
    rw [List.mem_singleton.mp hmethod]
    exact wellTyped_oneBlock (by decide) (by decide))

end Witness

end Prusti.Optimizations.Purification

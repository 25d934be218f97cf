/-
Where an expression needs a reference, and which of these places the purification of
local variables leaves to a variable that it declares as an integer or a boolean.
-/
import Prusti.Optimizations.LocalPurifier

namespace Prusti.Optimizations.Purification

open Prusti.Vir Prusti.Cfg Prusti.Lib

variable {expr base base' : Expr} {fld : Field} {types : List (Option Typ)} {pos : Position}
  {var : LocalVar}

section Positions

/-- Does a result of the expression meet a condition?  Both branches of a conditional give
results. -/
def anyResult (leaf : Expr → Bool) (expr : Expr) : Bool :=
  expr.para fun node parts _ =>
    match node with
    | .labelledOld _ _ _ | .downcast _ _ _ => parts.headD false
    | .unfolding _ _ _ _ _ _ | .letExpr _ _ _ _ => parts.getLastD false
    | .cond _ _ _ _ => parts.tail.any id
    | _ => leaf node

def isReference (expr : Expr) : Bool := expr.staticType.any Typ.isRef

def hasReference : Expr → Bool := anyResult isReference

def holdsReferences : Typ → Bool
  | .seq elem => elem.isRef
  | _ => false

/-- Which of the sub-expressions have to be references, when it is known whether the
expression itself has to be one.  The sides of an equality and the branches of a
conditional have to be references where the other one is. -/
def needs (given : Expr → Bool) (node : Expr) (need : Bool) : List Bool :=
  match node with
  | .localVar _ _ | .const _ _ => []
  | .variant _ _ _ | .field _ _ _ | .addrOf _ _ _ | .predicateAccessPredicate _ _ _ _
  | .snapApp _ _ => [true]
  | .labelledOld _ _ _ => [need]
  | .fieldAccessPredicate _ _ _ | .unaryOp _ _ _ | .forAll _ _ _ _ | .exist _ _ _ _ =>
    [false]
  | .binOp kind left right _ =>
    match kind with
    | .eqCmp | .neCmp => [given right, given left]
    | _ => [false, false]
  | .containerOp _ _ _ _ | .magicWand _ _ _ _ | .inhaleExhale _ _ _ => [false, false]
  | .seq typ elems _ => elems.map fun _ => holdsReferences typ
  | .unfolding _ args _ _ _ _ => args.map (fun _ => true) ++ [need]
  | .cond _ thenExpr elseExpr _ => [false, need || given elseExpr, need || given thenExpr]
  | .letExpr var _ _ _ => [var.typ.isRef, need]
  | .funcApp _ _ formalArgs _ _ => formalArgs.map (·.typ.isRef)
  | .domainFuncApp func _ _ => func.formalArgs.map (·.typ.isRef)
  | .downcast _ _ _ => [need, true]

def usesAt (parts : List (Bool → Bool)) (needs : List Bool) : Bool :=
  (List.zipWith (fun part need => part need) parts needs).any id

/-- Does one of the variables stand where a reference is needed? -/
def refUse (vars : String → Bool) (expr : Expr) : Bool → Bool :=
  expr.para fun node parts triggers need =>
    match node with
    | .localVar var _ => need && vars var.name
    | _ => usesAt parts (needs hasReference node need) ||
        triggers.any fun trigger => trigger.any fun part => part false

/-- The types of the arguments and of the results of the methods. -/
abbrev Signature := String → List Typ × List Typ

variable (signature : Signature) (vars : String → Bool)

mutual

def stmtUse : Stmt → Bool
  | .comment _ | .label _ | .beginFrame | .endFrame | .expireBorrows _ => false
  | .inhale expr | .exhale expr _ | .assert expr _ | .obtain expr _
  | .applyMagicWand expr _ => refUse vars expr false
  | .methodCall name args targets =>
    usesAt (args.map (refUse vars)) ((signature name).1.map Typ.isRef) ||
      usesAt (targets.map fun target need => need && vars target.name)
        ((signature name).2.map Typ.isRef)
  | .assign lhs rhs _ | .transferPerm lhs rhs _ =>
    refUse vars lhs (hasReference rhs) || refUse vars rhs (hasReference lhs)
  | .fold _ args _ _ _ | .unfold _ args _ _ => args.any fun arg => refUse vars arg true
  | .packageMagicWand wand stmts _ _ _ => refUse vars wand false || stmtsUse stmts
  | .ite guard thenStmts elseStmts =>
    refUse vars guard false || stmtsUse thenStmts || stmtsUse elseStmts
  | .downcast enumPlace _ => refUse vars enumPlace true

def stmtsUse : List Stmt → Bool
  | [] => false
  | stmt :: stmts => stmtUse stmt || stmtsUse stmts

end

def methodUse (method : CfgMethod) : Bool :=
  stmtsUse signature vars method.stmts || method.guards.any fun guard => refUse vars guard false

/-- The variables that are declared as a reference before, and not any more after. -/
def changedVars (before after : CfgMethod) : List String :=
  (before.localVars.zip after.localVars).filterMap fun vars =>
    if vars.1.typ.isRef && !vars.2.typ.isRef then some vars.1.name else none

end Positions

section Kept

variable (targets : List String)

/-- Does the purifier turn the expression into a purified variable? -/
def turnsInto (expr : Expr) : Bool :=
  expr.para fun node parts _ =>
    match node with
    | .localVar var _ => targets.contains var.name
    | .field _ _ _ | .labelledOld _ _ _ => parts.headD false
    | .unfolding _ args _ _ _ _ => (foldedVar targets args).isSome && parts.getLastD false
    | _ => false

/-- Does a result of the expression stay a reference? -/
def staysReference : Expr → Bool := anyResult fun leaf => !isTarget targets leaf && isReference leaf

/-- Is a purified variable used as a reference at a place that the purifier keeps?  It
removes field accesses, access predicates and unfoldings, and it does not look into
triggers and into the other field access predicates.  That the value of a variable stands
where a reference is needed does not happen in well-typed code. -/
def keptUse (expr : Expr) : Bool → Bool :=
  expr.para fun node parts _ need =>
    match node with
    | .localVar var _ => need && targets.contains var.name
    | .field base _ _ =>
      if turnsInto targets base then need
      else usesAt parts (needs (staysReference targets) node need)
    | .predicateAccessPredicate _ arg _ _ =>
      !isTarget targets arg && usesAt parts (needs (staysReference targets) node need)
    | .fieldAccessPredicate receiver _ _ =>
      !isTargetField targets receiver && refUse targets.contains receiver false
    | .unfolding _ args _ _ _ _ =>
      if (foldedVar targets args).isSome then (parts.getLastD fun _ => false) need
      else usesAt parts (needs (staysReference targets) node need)
    | _ => usesAt parts (needs (staysReference targets) node need) ||
        node.triggers.any fun trigger => trigger.any fun part =>
          refUse targets.contains part false

variable (predicates : List Predicate) (signature : Signature)

/-- The uses that are left of a fold or an unfold. -/
def keptFold (name : String) (args : List Expr) : Bool :=
  match foldedVar targets args with
  | some var =>
    match predicateFacts predicates name var with
    | some facts => facts.any fun facts => keptUse targets facts false
    | none => true
  | none => args.any fun arg => keptUse targets arg true

mutual

def keptStmt : Stmt → Bool
  | .comment _ | .label _ | .beginFrame | .endFrame | .expireBorrows _ => false
  | .inhale expr | .exhale expr _ | .assert expr _ | .obtain expr _
  | .applyMagicWand expr _ => keptUse targets expr false
  | .methodCall name args vars =>
    if isHavoc name && vars.length == 1 && vars.all fun var => targets.contains var.name then
      false
    else
      usesAt (args.map (keptUse targets)) ((signature name).1.map Typ.isRef) ||
        usesAt (vars.map fun var need => need && targets.contains var.name)
          ((signature name).2.map Typ.isRef)
  | .assign lhs rhs _ =>
    match assignedSource targets lhs rhs with
    | some rhs => keptUse targets lhs (staysReference targets rhs) ||
        keptUse targets rhs (staysReference targets lhs)
    | none => true
  | .transferPerm lhs rhs _ =>
    keptUse targets lhs (staysReference targets rhs) ||
      keptUse targets rhs (staysReference targets lhs)
  | .fold name args _ _ _ | .unfold name args _ _ => keptFold targets predicates name args
  | .packageMagicWand wand stmts _ _ _ => keptUse targets wand false || keptStmts stmts
  | .ite guard thenStmts elseStmts =>
    keptUse targets guard false || keptStmts thenStmts || keptStmts elseStmts
  | .downcast enumPlace _ => keptUse targets enumPlace true

def keptStmts : List Stmt → Bool
  | [] => false
  | stmt :: stmts => keptStmt stmt || keptStmts stmts

end

/-- The variables that an expression mentions without a field access. -/
def bareVars (expr : Expr) : List String :=
  expr.para fun node parts _ =>
    match node with
    | .localVar var _ => [var.name]
    | .field (.localVar _ _) _ _ => []
    | _ => parts.flatten

def assignSource : Stmt → List Expr
  | .assign _ rhs _ => [rhs]
  | _ => []

/-- The variables that none of the expressions mentions without a field access. -/
def unmentioned (exprs : List Expr) (vars : List String) : List String :=
  vars.filter fun name => !exprs.any fun expr => (bareVars expr).contains name

/-- The variables of a supported type that no source of an assignment and no guard of a
successor mentions without a field access. -/
def retypedVars (method : CfgMethod) : List String :=
  unmentioned ((Stmt.allNested method.stmts).flatMap assignSource ++ method.guards)
    (candidates method)

/-- Does the pass leave a use of a retyped variable as a reference? -/
def keptMethod (method : CfgMethod) : Bool :=
  keptStmts (retypedVars method) predicates signature method.stmts ||
    method.guards.any fun guard => refUse (retypedVars method).contains guard false

end Kept

section Typed

variable (declared : List LocalVar)

/-- What is used of a well-typed node: a variable has the type that it is declared with, a
field of a supported type is the field of its value, integers and booleans have no fields,
and the operators on sequences are applied to a sequence. -/
def typedNode (node : Expr) (types : List (Option Typ)) : Bool :=
  match node with
  | .localVar var _ => declared.all fun other => other.name != var.name || decide (other = var)
  | .field _ fld _ =>
    match types.headD none with
    | some .int | some .bool => false
    | some typ => (valueField typ).all fun value => decide (fld = value)
    | none => true
  | .containerOp kind _ _ _ =>
    match kind, types.headD none with
    | .seqLen, _ | _, some (.seq _) => true
    | _, _ => false
  | _ => true

def typed (expr : Expr) : Bool :=
  expr.para fun node parts _ =>
    typedNode declared node (node.children.map Expr.staticType) && parts.all id

theorem typed_iff :
    typed declared expr = true ↔
      typedNode declared expr (expr.children.map Expr.staticType) = true ∧
        ∀ child ∈ expr.children, typed declared child = true := by
  unfold typed
  rw [Expr.para_eq, Bool.and_eq_true]
  simp

end Typed

section Equations

variable (targets : List String)

theorem foldExpr_eq (expr : Expr) :
    foldExpr targets expr = foldNode targets expr (expr.children.map (foldExpr targets)) :=
  Expr.para_eq _ expr

theorem turnsInto_eq (expr : Expr) :
    turnsInto targets expr =
      match expr with
      | .localVar var _ => targets.contains var.name
      | .field base _ _ | .labelledOld _ base _ => turnsInto targets base
      | .unfolding _ args base _ _ _ => (foldedVar targets args).isSome && turnsInto targets base
      | _ => false := by
  unfold turnsInto
  rw [Expr.para_eq]
  cases expr <;> simp [Expr.children]

theorem anyResult_eq (leaf : Expr → Bool) (expr : Expr) :
    anyResult leaf expr =
      match expr with
      | .labelledOld _ base _ | .downcast base _ _ | .unfolding _ _ base _ _ _
      | .letExpr _ _ base _ => anyResult leaf base
      | .cond _ thenExpr elseExpr _ => anyResult leaf thenExpr || anyResult leaf elseExpr
      | leafExpr => leaf leafExpr := by
  unfold anyResult
  rw [Expr.para_eq]
  cases expr <;> simp [Expr.children]

/-- Are the sub-expressions of the node folded and put back? -/
def isPlain : Expr → Bool
  | .localVar _ _ | .field _ _ _ | .fieldAccessPredicate _ _ _ | .labelledOld _ _ _ => false
  | .predicateAccessPredicate _ arg _ _ => !isTarget targets arg
  | .unfolding _ args _ _ _ _ => (foldedVar targets args).isNone
  | _ => true

variable {targets}

theorem foldNode_of_isPlain {node : Expr} (h : isPlain targets node = true)
    (parts : List (Option Expr)) :
    foldNode targets node parts = (parts.mapM id).map node.rebuild := by
  cases node <;> simp_all [isPlain, foldNode]

theorem turnsInto_of_isPlain (h : isPlain targets expr = true) :
    turnsInto targets expr = false := by
  rw [turnsInto_eq]
  cases expr <;> simp_all [isPlain]

theorem refUse_localVar (vars : String → Bool) (var : LocalVar) (pos : Position) (need : Bool) :
    refUse vars (.localVar var pos) need = (need && vars var.name) := rfl

theorem refUse_eq (vars : String → Bool) (h : ∀ var pos, expr ≠ .localVar var pos) (need : Bool) :
    refUse vars expr need =
      (usesAt (expr.children.map (refUse vars)) (needs hasReference expr need) ||
        expr.triggers.any fun trigger => trigger.any fun part => refUse vars part false) := by
  unfold refUse
  rw [Expr.para_eq]
  cases expr with
  | localVar var pos => exact absurd rfl (h var pos)
  | _ => simp [List.any_map, Function.comp_def]

theorem keptUse_eq (h : isPlain targets expr = true) (need : Bool) :
    keptUse targets expr need =
      (usesAt (expr.children.map (keptUse targets))
          (needs (staysReference targets) expr need) ||
        expr.triggers.any fun trigger => trigger.any fun part =>
          refUse targets.contains part false) := by
  unfold keptUse
  rw [Expr.para_eq]
  cases expr <;> simp_all [isPlain, Expr.triggers]

theorem keptUse_field (base : Expr) (fld : Field) (pos : Position) (need : Bool) :
    keptUse targets (.field base fld pos) need =
      if turnsInto targets base then need else keptUse targets base true := by
  unfold keptUse
  simp [Expr.para_eq, Expr.children, needs, usesAt]

theorem keptUse_labelledOld (label : String) (base : Expr) (pos : Position) (need : Bool) :
    keptUse targets (.labelledOld label base pos) need = keptUse targets base need := by
  unfold keptUse
  simp [Expr.para_eq, Expr.children, Expr.triggers, needs, usesAt]

theorem keptUse_unfolding {args : List Expr} (h : (foldedVar targets args).isSome = true)
    (name : String) (base : Expr) (perm : PermAmount) (index : Option EnumVariantIndex)
    (pos : Position) (need : Bool) :
    keptUse targets (.unfolding name args base perm index pos) need =
      keptUse targets base need := by
  unfold keptUse
  simp [Expr.para_eq, Expr.children, h]

end Equations

section Supported

variable {typ : Typ}

/-- A supported type is a reference, and it is translated to the type of its value. -/
theorem exists_valueField (h : isSupported typ = true) :
    ∃ fld, valueField typ = some fld ∧ translateType typ = some fld.typ ∧
      (fld.typ = .int ∨ fld.typ = .bool) := by
  cases typ with
  | typedRef name =>
    have hname : name = "bool" ∨ name = "i32" ∨ name = "usize" ∨ name = "u32" := by
      simpa [isSupported, supportedTypes] using h
    rcases hname with rfl | rfl | rfl | rfl
    · exact ⟨⟨"val_bool", .bool⟩, by decide, by decide, .inr rfl⟩
    · exact ⟨⟨"val_int", .int⟩, by decide, by decide, .inl rfl⟩
    · exact ⟨⟨"val_int", .int⟩, by decide, by decide, .inl rfl⟩
    · exact ⟨⟨"val_int", .int⟩, by decide, by decide, .inl rfl⟩
  | _ => cases h

theorem isRef_of_isSupported (h : isSupported typ = true) : typ.isRef = true := by
  cases typ with
  | typedRef => rfl
  | _ => cases h

/-- The field of a value holds an integer or a boolean. -/
theorem typ_of_valueField (h : valueField typ = some fld) : fld.typ = .int ∨ fld.typ = .bool := by
  cases typ with
  | typedRef name =>
    simp only [valueField] at h
    split at h
    · cases h
      exact .inr rfl
    · split at h
      · cases h
        exact .inl rfl
      · cases h
  | _ => cases h

theorem isRef_eq_false (h : typ = .int ∨ typ = .bool) : typ.isRef = false := by
  rcases h with rfl | rfl <;> rfl

theorem translateType_of_value (h : typ = .int ∨ typ = .bool) : translateType typ = some typ := by
  rcases h with rfl | rfl <;> rfl

end Supported

/-- The types of sequences do not change. -/
def KeepsSeq (typ typ' : Option Typ) : Prop :=
  ∀ elem, typ = some (.seq elem) → typ' = some (.seq elem)

theorem KeepsSeq.containerType {left left' right right' : Option Typ}
    (hleft : KeepsSeq left left') (hright : KeepsSeq right right') (kind : ContainerOpKind) :
    KeepsSeq (Expr.containerType kind left right) (Expr.containerType kind left' right') := by
  intro elem htyp
  cases kind with
  | seqIndex =>
    rcases left with _ | typ
    · cases htyp
    · cases typ with
      | seq inner => rw [hleft inner rfl]; exact htyp
      | _ => cases htyp
  | seqConcat =>
    rw [Expr.containerType] at htyp
    split at htyp
    · next hsame =>
        rw [Expr.containerType, hleft elem htyp, hright elem (hsame ▸ htyp), if_pos rfl]
    · cases htyp
  | seqLen => cases htyp

theorem KeepsSeq.nodeType {types' : List (Option Typ)} (h : List.Forall₂ KeepsSeq types types')
    (node : Expr) :
    KeepsSeq (node.nodeType types) (node.nodeType types') := by
  intro elem htyp
  cases node with
  | labelledOld | downcast =>
    cases h with
    | nil => cases htyp
    | cons hfirst _ => exact hfirst elem htyp
  | unfolding | letExpr =>
    simp only [Expr.nodeType, List.getLastD_eq_getLast?] at htyp ⊢
    cases hlast : types.getLast? with
    | none => simp [hlast] at htyp
    | some typ =>
      obtain ⟨typ', hlast', hkeeps⟩ := getLast?_of_forall₂ h hlast
      rw [hlast, Option.getD_some] at htyp
      rw [hlast', Option.getD_some]
      exact hkeeps elem htyp
  | cond =>
    rcases h with _ | ⟨_, _ | ⟨hthen, _ | ⟨helse, _ | _⟩⟩⟩
    · cases htyp
    · cases htyp
    · cases htyp
    · simp only [Expr.nodeType] at htyp ⊢
      split at htyp
      · next hsame =>
          rw [hthen elem htyp, helse elem (hsame ▸ htyp), if_pos rfl]
      · cases htyp
    · cases htyp
  | containerOp kind =>
    rcases h with _ | ⟨hleft, _ | ⟨hright, _ | _⟩⟩
    · cases htyp
    · cases htyp
    · exact hleft.containerType hright kind elem htyp
    · cases htyp
  | const value => cases value <;> cases htyp
  | unaryOp kind => cases kind <;> cases htyp
  | _ => exact htyp

section Rebuild

variable {targets : List String} {node : Expr} {parts : List Expr}

theorem staticType_rebuild (h : parts.length = node.children.length) :
    (node.rebuild parts).staticType = node.nodeType (parts.map Expr.staticType) := by
  rw [Expr.staticType_eq, Expr.children_rebuild h]
  exact Expr.apply_rebuild (f := fun expr => expr.nodeType (parts.map Expr.staticType))
    (by intro expr; cases expr with
      | const value => cases value <;> rfl
      | unaryOp kind => cases kind <;> rfl
      | _ => rfl) h

/-- The expression needs references where the other one does. -/
theorem needs_rebuild {given given' : Expr → Bool}
    (h : List.Forall₂ (fun child part => given' part = given child) node.children parts)
    (need : Bool) :
    needs given' (node.rebuild parts) need = needs given node need := by
  have hlength := h.length_eq
  cases node with
  | binOp kind left right =>
    obtain ⟨left', right', rfl⟩ := List.length_eq_two.mp hlength.symm
    simp only [Expr.children, List.forall₂_cons, List.Forall₂.nil, and_true] at h
    cases kind <;> simp [needs, Expr.rebuild, h]
  | cond guard thenExpr elseExpr =>
    obtain ⟨guard', then', else', rfl⟩ := List.length_eq_three.mp hlength.symm
    simp only [Expr.children, List.forall₂_cons, List.Forall₂.nil, and_true] at h
    simp [needs, Expr.rebuild, h]
  | seq typ elems => simp_all [needs, Expr.rebuild, Expr.children, List.map_const']
  | unfolding name args base =>
    simp_all [needs, Expr.rebuild, Expr.children, List.map_const']
    omega
  | funcApp | domainFuncApp | localVar | const => simp [needs, Expr.rebuild]
  | variant | field | addrOf | labelledOld | predicateAccessPredicate
  | fieldAccessPredicate | unaryOp | snapApp | forAll | exist =>
    obtain ⟨part, rfl⟩ := List.length_eq_one_iff.mp hlength.symm
    rfl
  | magicWand | containerOp | letExpr | inhaleExhale | downcast =>
    obtain ⟨left, right, rfl⟩ := List.length_eq_two.mp hlength.symm
    rfl

end Rebuild

section Plain

variable {declared : List LocalVar} {targets : List String} {node : Expr} {parts : List Expr}

/-- Is the type of the node its own, whatever its sub-expressions are? -/
def hasOwnType : Expr → Bool
  | .labelledOld _ _ _ | .downcast _ _ _ | .unfolding _ _ _ _ _ _ | .letExpr _ _ _ _
  | .cond _ _ _ _ | .containerOp _ _ _ _ => false
  | _ => true

theorem nodeType_of_hasOwnType (h : hasOwnType node = true) (types types' : List (Option Typ)) :
    node.nodeType types = node.nodeType types' := by
  cases node with
  | const value => cases value <;> rfl
  | unaryOp kind => cases kind <;> rfl
  | labelledOld | downcast | unfolding | letExpr | cond | containerOp => cases h
  | _ => rfl

theorem isReference_rebuild (h : hasOwnType node = true)
    (hlength : parts.length = node.children.length) :
    isReference (node.rebuild parts) = isReference node := by
  rw [isReference, isReference, staticType_rebuild hlength, Expr.staticType_eq node,
    nodeType_of_hasOwnType h]

/-- An element of a sequence is a reference as long as the sequence keeps its type. -/
theorem isReference_containerOp {kind : ContainerOpKind} {left left' right right' : Expr}
    (htyped : typedNode declared (.containerOp kind left right pos)
      [left.staticType, right.staticType] = true)
    (hleft : KeepsSeq left.staticType left'.staticType) :
    isReference (.containerOp kind left' right' pos) =
      isReference (.containerOp kind left right pos) := by
  have htyp : ∀ left right, (Expr.containerOp kind left right pos).staticType =
      Expr.containerType kind left.staticType right.staticType :=
    fun _ _ => Expr.staticType_eq _
  rw [isReference, isReference, htyp, htyp]
  cases kind with
  | seqLen => rfl
  | seqIndex | seqConcat =>
    simp only [typedNode, List.headD_cons] at htyped
    cases htyp : left.staticType with
    | none => simp [htyp] at htyped
    | some typ =>
      cases typ with
      | seq elem =>
        rw [hleft elem htyp]
        first
          | rfl
          | (simp only [Expr.containerType]
             split <;> split <;> rfl)
      | _ => simp [htyp] at htyped

end Plain

section Folds

variable (targets : List String)

/-- What the purifier makes of an expression. -/
structure Folds (expr folded : Expr) : Prop where
  fold : foldExpr targets expr = some folded
  seq : KeepsSeq expr.staticType folded.staticType
  reference : hasReference folded = staysReference targets expr
  turns : isTarget targets folded = turnsInto targets expr
  value : ∀ var pos, folded = .localVar var pos → targets.contains var.name = true →
    var.typ = .int ∨ var.typ = .bool
  use : ∀ need, refUse targets.contains folded need = keptUse targets expr need

variable {targets}
variable {declared : List LocalVar} {node : Expr} {parts : List Expr}

theorem Folds.of_localVar (h : Folds targets expr (.localVar var pos))
    (hturns : turnsInto targets expr = true) :
    targets.contains var.name = true ∧ (var.typ = .int ∨ var.typ = .bool) := by
  have htarget : targets.contains var.name = true := h.turns.trans hturns
  exact ⟨htarget, h.value var pos rfl htarget⟩

theorem isLocal_of_isPlain (h : isPlain targets node = true) : node.isLocal = false := by
  cases node with
  | localVar => cases h
  | _ => rfl

theorem isTarget_of_isLocal (h : expr.isLocal = false) : isTarget targets expr = false := by
  cases expr with
  | localVar => cases h
  | _ => rfl

theorem anyResult_of_hasOwnType (h : hasOwnType expr = true) (leaf : Expr → Bool) :
    anyResult leaf expr = leaf expr := by
  rw [anyResult_eq]
  cases expr with
  | labelledOld | downcast | unfolding | letExpr | cond | containerOp => cases h
  | _ => rfl

theorem hasReference_rebuild (hplain : isPlain targets node = true)
    (htyped : typedNode declared node (node.children.map Expr.staticType) = true)
    (h : List.Forall₂ (Folds targets) node.children parts) :
    hasReference (node.rebuild parts) = staysReference targets node := by
  have hlength := h.length_eq.symm
  unfold hasReference staysReference
  by_cases hown : hasOwnType node = true
  · have hown' : hasOwnType (node.rebuild parts) = true := by
      rw [← hown]
      exact Expr.apply_rebuild (by intro expr; cases expr <;> rfl) hlength
    rw [anyResult_of_hasOwnType hown', anyResult_of_hasOwnType hown,
      isReference_rebuild hown hlength, isTarget_of_isLocal (isLocal_of_isPlain hplain)]
    rfl
  cases node with
  | labelledOld => cases hplain
  | downcast base enumPlace fld =>
    obtain ⟨base', place', rfl⟩ := List.length_eq_two.mp hlength
    obtain ⟨hbase, -⟩ := List.forall₂_cons.mp h
    rw [Expr.rebuild, anyResult_eq, anyResult_eq]
    exact hbase.reference
  | letExpr var inner body =>
    obtain ⟨inner', body', rfl⟩ := List.length_eq_two.mp hlength
    obtain ⟨-, h⟩ := List.forall₂_cons.mp h
    obtain ⟨hbody, -⟩ := List.forall₂_cons.mp h
    rw [Expr.rebuild, anyResult_eq, anyResult_eq]
    exact hbody.reference
  | cond guard thenExpr elseExpr =>
    obtain ⟨guard', then', else', rfl⟩ := List.length_eq_three.mp hlength
    obtain ⟨-, h⟩ := List.forall₂_cons.mp h
    obtain ⟨hthen, h⟩ := List.forall₂_cons.mp h
    obtain ⟨helse, -⟩ := List.forall₂_cons.mp h
    rw [Expr.rebuild, anyResult_eq, anyResult_eq]
    exact congrArg₂ or hthen.reference helse.reference
  | unfolding name args base =>
    obtain ⟨args', bases', hargs, hbases, rfl⟩ := exists_of_forall₂_append h
    obtain ⟨base', rfl⟩ : ∃ base', bases' = [base'] :=
      List.length_eq_one_iff.mp hbases.length_eq.symm
    obtain ⟨hbase, -⟩ := List.forall₂_cons.mp hbases
    rw [Expr.rebuild, anyResult_eq, anyResult_eq, List.getLastD_concat]
    exact hbase.reference
  | containerOp kind left right =>
    obtain ⟨left', right', rfl⟩ := List.length_eq_two.mp hlength
    obtain ⟨hleft, -⟩ := List.forall₂_cons.mp h
    rw [Expr.rebuild, anyResult_eq, anyResult_eq]
    exact isReference_containerOp htyped hleft.seq
  | _ => exact absurd rfl hown

theorem map_refUse_of_folds {exprs : List Expr} (h : List.Forall₂ (Folds targets) exprs parts) :
    parts.map (refUse targets.contains) = exprs.map (keptUse targets) := by
  induction h with
  | nil => rfl
  | cons hfirst _ ih => rw [List.map_cons, List.map_cons, ih, funext hfirst.use]

theorem Folds.mapM {exprs : List Expr} (h : List.Forall₂ (Folds targets) exprs parts) :
    exprs.mapM (foldExpr targets) = some parts :=
  mapM_eq_some_iff.mpr (h.imp fun _ _ hfolds => hfolds.fold)

/-- The default fold. -/
theorem Folds.rebuild (hplain : isPlain targets node = true)
    (htyped : typedNode declared node (node.children.map Expr.staticType) = true)
    (h : List.Forall₂ (Folds targets) node.children parts) :
    Folds targets node (node.rebuild parts) := by
  have hlength := h.length_eq.symm
  have hlocal : (node.rebuild parts).isLocal = false := by
    rw [Expr.isLocal_rebuild hlength, isLocal_of_isPlain hplain]
  have hne : ∀ var pos, node.rebuild parts ≠ .localVar var pos := by
    intro var pos heq
    rw [heq] at hlocal
    cases hlocal
  constructor
  case fold =>
    rw [foldExpr_eq, foldNode_of_isPlain hplain, List.mapM_map, Function.id_comp,
      Folds.mapM h, Option.map_some]
  case seq =>
    rw [staticType_rebuild hlength, Expr.staticType_eq node]
    refine KeepsSeq.nodeType ?_ node
    rw [List.forall₂_map_left_iff, List.forall₂_map_right_iff]
    exact h.imp fun _ _ hfolds => hfolds.seq
  case reference => exact hasReference_rebuild hplain htyped h
  case turns => rw [isTarget_of_isLocal hlocal, turnsInto_of_isPlain hplain]
  case value => exact fun var pos heq => absurd heq (hne var pos)
  case use =>
    intro need
    have hneeds : needs hasReference (node.rebuild parts) need =
        needs (staysReference targets) node need :=
      needs_rebuild (h.imp fun _ _ hfolds => hfolds.reference) need
    rw [refUse_eq _ hne, keptUse_eq hplain, Expr.children_rebuild hlength,
      Expr.triggers_rebuild hlength, hneeds, map_refUse_of_folds h]

/-- A field of an expression that turns into a purified variable is the variable. -/
theorem Folds.field (h : Folds targets base base')
    (hvalue : turnsInto targets base = true → fld.typ = .int ∨ fld.typ = .bool) :
    ∃ folded, Folds targets (.field base fld pos) folded := by
  have hfold : foldExpr targets (.field base fld pos) = foldField targets base' fld pos := by
    rw [foldExpr_eq, foldNode, Expr.children, List.map_cons, List.headD_cons, h.fold,
      Option.bind_some]
  by_cases hturns : turnsInto targets base = true
  · obtain ⟨var, varPos, rfl⟩ : ∃ var varPos, base' = .localVar var varPos := by
      have htarget := h.turns.trans hturns
      cases base' with
      | localVar var varPos => exact ⟨var, varPos, rfl⟩
      | _ => cases htarget
    obtain ⟨htarget, htyp⟩ := h.of_localVar hturns
    have hfld := hvalue hturns
    refine ⟨.localVar var varPos, ?_, ?_, ?_, ?_, ?_, ?_⟩
    · rw [hfold, foldField, if_pos htarget, foldVar, translateType_of_value htyp, Option.map_some]
    · intro elem htyp
      rw [Expr.staticType_eq] at htyp
      rcases hfld with hfld | hfld <;> simp [Expr.nodeType, hfld] at htyp
    · have hleft : hasReference (.localVar var varPos) = var.typ.isRef := rfl
      have hright : staysReference targets (.field base fld pos) = fld.typ.isRef := by
        rw [staysReference, anyResult_of_hasOwnType rfl, isReference, Expr.staticType_eq]
        rfl
      rw [hleft, hright, isRef_eq_false htyp, isRef_eq_false hfld]
    · rw [turnsInto_eq]
      exact h.turns
    · exact h.value
    · intro need
      rw [refUse_localVar, htarget, Bool.and_true, keptUse_field, if_pos hturns]
  · have hturns' : turnsInto targets base = false := by simpa using hturns
    have hkeep : foldField targets base' fld pos = some (.field base' fld pos) := by
      have htarget := h.turns.trans hturns'
      cases base' with
      | localVar var varPos =>
        rw [foldField, if_neg]
        simpa [isTarget] using htarget
      | _ => rfl
    have hown : ∀ inner, staysReference targets (.field inner fld pos) =
        isReference (.field inner fld pos) := by
      intro inner
      rw [staysReference, anyResult_of_hasOwnType rfl]
      rfl
    refine ⟨.field base' fld pos, ?_, ?_, ?_, ?_, ?_, ?_⟩
    · rw [hfold, hkeep]
    · intro elem htyp
      rw [Expr.staticType_eq] at htyp ⊢
      exact htyp
    · rw [hown, hasReference, anyResult_of_hasOwnType rfl, isReference, isReference,
        Expr.staticType_eq, Expr.staticType_eq]
      rfl
    · rw [turnsInto_eq]
      exact hturns'.symm
    · intro var varPos heq
      cases heq
    · intro need
      rw [keptUse_field, if_neg hturns, refUse_eq _ (by intro _ _ h; cases h)]
      simp [Expr.children, Expr.triggers, needs, usesAt, h.use]

/-- A label stays only where the value depends on the heap. -/
theorem Folds.labelledOld (h : Folds targets base base') (label : String) (pos : Position) :
    ∃ folded, Folds targets (.labelledOld label base pos) folded := by
  have hfold : foldExpr targets (.labelledOld label base pos) =
      some (if base'.isHeapDependent then .labelledOld label base' pos else base') := by
    rw [foldExpr_eq, foldNode, Expr.children, List.map_cons, List.headD_cons, h.fold,
      Option.map_some]
  have htyp : ∀ inner, (Expr.labelledOld label inner pos).staticType = inner.staticType := by
    intro inner
    rw [Expr.staticType_eq]
    rfl
  have hstays : staysReference targets (.labelledOld label base pos) =
      staysReference targets base := by
    rw [staysReference, anyResult_eq]
  have hturns : turnsInto targets (.labelledOld label base pos) = turnsInto targets base := by
    rw [turnsInto_eq]
  refine ⟨_, hfold, ?_, ?_, ?_, ?_, ?_⟩
  · rw [htyp]
    split
    · rw [htyp]
      exact h.seq
    · exact h.seq
  · rw [hstays, ← h.reference]
    split
    · rw [hasReference, anyResult_eq]
    · rfl
  · rw [hturns, ← h.turns]
    split
    · next hheap =>
        cases base' with
        | localVar => cases hheap
        | _ => rfl
    · rfl
  · intro var varPos heq
    split at heq
    · cases heq
    · exact h.value var varPos heq
  · intro need
    rw [keptUse_labelledOld, ← h.use need]
    split
    · rw [refUse_eq _ (by intro _ _ h; cases h)]
      simp [Expr.children, Expr.triggers, needs, usesAt]
    · rfl

/-- Every purified variable is declared with a supported type. -/
def Declares (targets : List String) (declared : List LocalVar) : Prop :=
  ∀ name, targets.contains name = true →
    ∃ var ∈ declared, var.name = name ∧ isSupported var.typ = true

theorem Declares.isSupported (hdeclared : Declares targets declared)
    (htyped : typedNode declared (.localVar var pos) types = true)
    (htarget : targets.contains var.name = true) : isSupported var.typ = true := by
  obtain ⟨other, hother, hname, hsupported⟩ := hdeclared var.name htarget
  simp only [typedNode, List.all_eq_true, Bool.or_eq_true, bne_iff_ne, ne_eq,
    decide_eq_true_eq] at htyped
  rcases htyped other hother with hne | rfl
  · exact absurd hname hne
  · exact hsupported

theorem Folds.localVar (hdeclared : Declares targets declared)
    (htyped : typedNode declared (.localVar var pos) types = true) :
    ∃ folded, Folds targets (.localVar var pos) folded := by
  have hturns : turnsInto targets (.localVar var pos) = targets.contains var.name := rfl
  by_cases htarget : targets.contains var.name = true
  · have hsupported := hdeclared.isSupported htyped htarget
    obtain ⟨fld, -, htranslate, htyp⟩ := exists_valueField hsupported
    refine ⟨.localVar ⟨var.name, fld.typ⟩ pos, ?_, ?_, ?_, rfl, ?_, fun _ => rfl⟩
    · rw [foldExpr_eq]
      simp only [foldNode, foldLocal, if_pos htarget, foldVar, htranslate, Option.map_some]
    · intro elem helem
      have hseq : var.typ = .seq elem := Option.some.inj ((Expr.staticType_eq _).symm.trans helem)
      rw [hseq] at hsupported
      cases hsupported
    · have hleft : hasReference (.localVar ⟨var.name, fld.typ⟩ pos) = fld.typ.isRef := rfl
      have hright : staysReference targets (.localVar var pos) =
          (!targets.contains var.name && var.typ.isRef) := rfl
      rw [hleft, hright, isRef_eq_false htyp, htarget]
      rfl
    · intro other otherPos heq _
      cases heq
      exact htyp
  · have htarget' : targets.contains var.name = false := by simpa using htarget
    refine ⟨.localVar var pos, ?_, fun _ h => h, ?_, rfl, ?_, fun _ => rfl⟩
    · rw [foldExpr_eq]
      simp only [foldNode, foldLocal, if_neg htarget]
    · have hleft : hasReference (.localVar var pos) = var.typ.isRef := rfl
      have hright : staysReference targets (.localVar var pos) =
          (!targets.contains var.name && var.typ.isRef) := rfl
      rw [hleft, hright, htarget']
      rfl
    · intro other otherPos heq hcontains
      cases heq
      exact absurd hcontains htarget

/-- What the purifier takes out holds or does not mention the heap any more. -/
theorem Folds.ofTrue (hfold : foldExpr targets expr = some (Expr.ofBool true))
    (htyp : expr.staticType = some .bool) (hown : hasOwnType expr = true)
    (hturns : turnsInto targets expr = false) (huse : ∀ need, keptUse targets expr need = false) :
    Folds targets expr (Expr.ofBool true) := by
  refine ⟨hfold, ?_, ?_, hturns.symm, ?_, ?_⟩
  · intro elem helem
    rw [htyp] at helem
    cases helem
  · rw [staysReference, anyResult_of_hasOwnType hown, isReference, htyp]
    simp [Typ.isRef]
    rfl
  · intro var pos heq
    cases heq
  · intro need
    rw [huse]
    rfl

theorem Folds.predicateAccessPredicate {name : String} {arg : Expr} {perm : PermAmount}
    (htarget : isTarget targets arg = true) :
    Folds targets (.predicateAccessPredicate name arg perm pos) (Expr.ofBool true) := by
  refine Folds.ofTrue ?_ (Expr.staticType_eq _) rfl rfl ?_
  · rw [foldExpr_eq]
    simp only [foldNode, if_pos htarget]
  · intro need
    unfold keptUse
    simp [Expr.para_eq, htarget]

/-- The receiver of a field access predicate is not folded. -/
theorem Folds.fieldAccessPredicate (receiver : Expr) (perm : PermAmount) (pos : Position) :
    ∃ folded, Folds targets (.fieldAccessPredicate receiver perm pos) folded := by
  have huse : ∀ need, keptUse targets (.fieldAccessPredicate receiver perm pos) need =
      (!isTargetField targets receiver && refUse targets.contains receiver false) := by
    intro need
    unfold keptUse
    rw [Expr.para_eq]
  by_cases htarget : isTargetField targets receiver = true
  · refine ⟨_, Folds.ofTrue ?_ (Expr.staticType_eq _) rfl rfl ?_⟩
    · rw [foldExpr_eq]
      simp only [foldNode, if_pos htarget]
    · intro need
      rw [huse, htarget]
      rfl
  · refine ⟨.fieldAccessPredicate receiver perm pos, ?_, fun _ h => h, ?_, rfl, ?_, ?_⟩
    · rw [foldExpr_eq]
      simp only [foldNode, if_neg htarget]
    · rw [hasReference, staysReference, anyResult_of_hasOwnType rfl, anyResult_of_hasOwnType rfl]
      rfl
    · intro var varPos heq
      cases heq
    · intro need
      rw [huse, refUse_eq _ (by intro _ _ h; cases h)]
      simp [Expr.children, Expr.triggers, needs, usesAt, htarget]

/-- An unfolding of a purified variable is replaced by its body. -/
theorem Folds.unfolding {args : List Expr} (h : Folds targets base base')
    (hargs : (foldedVar targets args).isSome = true) (name : String) (perm : PermAmount)
    (index : Option EnumVariantIndex) (pos : Position) :
    Folds targets (.unfolding name args base perm index pos) base' := by
  have htyp : (Expr.unfolding name args base perm index pos).staticType = base.staticType := by
    rw [Expr.staticType_eq]
    simp [Expr.nodeType, Expr.children]
  have hstays : staysReference targets (.unfolding name args base perm index pos) =
      staysReference targets base := by
    rw [staysReference, anyResult_eq]
  have hturns : turnsInto targets (.unfolding name args base perm index pos) =
      ((foldedVar targets args).isSome && turnsInto targets base) := turnsInto_eq targets _
  refine ⟨?_, ?_, ?_, ?_, h.value, ?_⟩
  · rw [foldExpr_eq]
    simp only [foldNode, if_pos hargs, Expr.children, List.map_append, List.map_cons,
      List.map_nil, List.getLastD_concat]
    exact h.fold
  · rw [htyp]
    exact h.seq
  · rw [hstays]
    exact h.reference
  · rw [hturns, hargs, Bool.true_and]
    exact h.turns
  · intro need
    rw [keptUse_unfolding hargs]
    exact h.use need

/-- A type that a purified variable has before or after the pass. -/
def IsValueType (typ : Typ) : Prop := isSupported typ = true ∨ typ = .int ∨ typ = .bool

/-- A field of such a type holds an integer or a boolean. -/
theorem IsValueType.field {typ : Typ} (h : IsValueType typ)
    (htyped : typedNode declared (.field base fld pos) [some typ] = true) :
    fld.typ = .int ∨ fld.typ = .bool := by
  rcases h with hsupported | rfl | rfl
  · obtain ⟨value, hvalue, -, htyp⟩ := exists_valueField hsupported
    cases typ with
    | typedRef name =>
      simp only [typedNode, List.headD_cons, hvalue, Option.all_some, decide_eq_true_eq] at htyped
      rw [htyped]
      exact htyp
    | _ => cases hsupported
  · cases htyped
  · cases htyped

theorem isValueType_of_turnsInto (hdeclared : Declares targets declared) (expr : Expr)
    (htyped : typed declared expr = true) (hturns : turnsInto targets expr = true) :
    ∃ typ, expr.staticType = some typ ∧ IsValueType typ := by
  induction expr using Expr.children_induction with
  | h expr ih _ =>
  rw [typed_iff] at htyped
  obtain ⟨hnode, hchildren⟩ := htyped
  rw [turnsInto_eq] at hturns
  rw [Expr.staticType_eq]
  cases expr with
  | localVar var pos => exact ⟨var.typ, rfl, .inl (hdeclared.isSupported hnode hturns)⟩
  | field base fld pos =>
    obtain ⟨typ, htyp, hvalue⟩ := ih base List.mem_cons_self
      (hchildren base List.mem_cons_self) hturns
    rw [Expr.children, List.map_cons, htyp] at hnode
    exact ⟨fld.typ, rfl, .inr (hvalue.field hnode)⟩
  | labelledOld label base =>
    exact ih base List.mem_cons_self (hchildren base List.mem_cons_self) hturns
  | unfolding name args base perm index pos =>
    have hmem : base ∈ (Expr.unfolding name args base perm index pos).children :=
      List.mem_append_right _ List.mem_cons_self
    obtain ⟨typ, htyp, hvalue⟩ := ih base hmem (hchildren base hmem)
      (Bool.and_eq_true_iff.mp hturns).2
    refine ⟨typ, ?_, hvalue⟩
    simpa [Expr.nodeType, Expr.children] using htyp
  | _ => cases hturns

/-- Every well-typed expression is folded. -/
theorem exists_folds (hdeclared : Declares targets declared) (expr : Expr)
    (htyped : typed declared expr = true) : ∃ folded, Folds targets expr folded := by
  induction expr using Expr.children_induction with
  | h expr ih _ =>
  have hchild : ∀ child ∈ expr.children, ∃ folded, Folds targets child folded :=
    fun child hchild => ih child hchild ((typed_iff declared).mp htyped |>.2 child hchild)
  have hnode := ((typed_iff declared).mp htyped).1
  by_cases hplain : isPlain targets expr = true
  · obtain ⟨parts, hparts⟩ := exists_forall₂ hchild
    exact ⟨_, Folds.rebuild hplain hnode hparts⟩
  cases expr with
  | localVar var pos => exact Folds.localVar hdeclared hnode
  | field base fld pos =>
    obtain ⟨base', hbase⟩ := hchild base List.mem_cons_self
    refine hbase.field fun hturns => ?_
    obtain ⟨typ, htyp, hvalue⟩ := isValueType_of_turnsInto hdeclared base
      (((typed_iff declared).mp htyped).2 base List.mem_cons_self) hturns
    rw [Expr.children, List.map_cons, htyp] at hnode
    exact hvalue.field hnode
  | labelledOld label base pos =>
    obtain ⟨base', hbase⟩ := hchild base List.mem_cons_self
    exact hbase.labelledOld label pos
  | fieldAccessPredicate receiver perm pos => exact Folds.fieldAccessPredicate receiver perm pos
  | predicateAccessPredicate name arg perm pos =>
    exact ⟨_, Folds.predicateAccessPredicate (by simpa [isPlain] using hplain)⟩
  | unfolding name args base perm index pos =>
    obtain ⟨base', hbase⟩ := hchild base (List.mem_append_right _ List.mem_cons_self)
    refine ⟨base', hbase.unfolding ?_ name perm index pos⟩
    simpa [isPlain, Option.isSome_iff_ne_none] using hplain
  | _ => exact absurd rfl hplain

end Folds

end Prusti.Optimizations.Purification

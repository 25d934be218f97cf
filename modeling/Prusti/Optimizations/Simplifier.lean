/-
The simplifier of function bodies: constant evaluation of the connectives, and
conditionals over Booleans as implications.
-/
import Prusti.Vir.Typing
import Prusti.Vir.Nodes

namespace Prusti.Optimizations

open Prusti.Vir

/-- If it returns true, then the expression is guaranteed to be Boolean. -/
def isBool (expr : Expr) : Bool :=
  if expr.isPlace then
    match expr.getType with
    | some .bool => true
    | _ => false
  else
    match expr with
    | .const (.bool _) _ | .unaryOp .not _ _ | .funcApp _ _ _ .bool _
    | .forAll _ _ _ _ | .exist _ _ _ _ => true
    | .binOp kind _ _ _ =>
      match kind with
      | .eqCmp | .neCmp | .gtCmp | .geCmp | .ltCmp | .leCmp | .and | .or
      | .implies => true
      | .add | .sub | .mul | .div | .mod => false
    | _ => false

def applyRules : Expr → Expr
  | .unaryOp .not (.const (.bool b) _) pos => .const (.bool (!b)) pos
  | .unaryOp .not (.binOp .eqCmp left right _) pos => .binOp .neCmp left right pos
  | .binOp .and (.const (.bool b) _) (.const (.bool b') _) pos =>
    .const (.bool (b && b')) pos
  | .binOp .and (.const (.bool b) _) conjunct _ =>
    if b then conjunct else Expr.ofBool false
  | .binOp .and conjunct (.const (.bool b) _) _ =>
    if b then conjunct else Expr.ofBool false
  | .binOp .or (.const (.bool b) _) disjunct _ =>
    if b then Expr.ofBool true else disjunct
  | .binOp .or disjunct (.const (.bool b) _) _ =>
    if b then Expr.ofBool true else disjunct
  | .binOp .implies guard (.const (.bool b) _) pos =>
    if b then Expr.ofBool true else .unaryOp .not guard pos
  | .binOp .implies (.const (.bool b) _) body _ =>
    if b then body else Expr.ofBool true
  | .binOp .and left right pos =>
    .binOp .and (applyRules left) (applyRules right) pos
  | expr => expr

/-- A conditional with a Boolean branch becomes two implications. -/
def foldCond (guard thenExpr elseExpr : Expr) (pos : Position) : Expr :=
  if isBool thenExpr || isBool elseExpr then
    .binOp .and (.binOp .implies guard thenExpr pos)
      (.binOp .implies (.unaryOp .not guard pos) elseExpr pos) pos
  else .cond guard thenExpr elseExpr pos

/-- The rules are applied to a conditional twice: by its own fold, and by the
fold of every expression. -/
def simplify (expr : Expr) : Expr :=
  expr.para fun node parts _ =>
    match node, parts with
    | .cond _ _ _ pos, [guard, thenExpr, elseExpr] =>
      applyRules (applyRules (foldCond guard thenExpr elseExpr pos))
    | node, parts => applyRules (node.rebuild parts)

/-- Boolean by its type, or a conditional with such a branch, perhaps in `old` or below
an unfolding. -/
inductive SeemsBool : Expr → Prop where
  | typed {expr} (htyp : expr.staticType = some .bool) : SeemsBool expr
  | old {label base pos} (h : SeemsBool base) : SeemsBool (.labelledOld label base pos)
  | unfolding {name args base perm index pos} (h : SeemsBool base) :
      SeemsBool (.unfolding name args base perm index pos)
  | thenBranch {guard thenExpr elseExpr pos} (h : SeemsBool thenExpr) :
      SeemsBool (.cond guard thenExpr elseExpr pos)
  | elseBranch {guard thenExpr elseExpr pos} (h : SeemsBool elseExpr) :
      SeemsBool (.cond guard thenExpr elseExpr pos)

/-- A conditional with a Boolean branch has only Boolean values. -/
def BranchesAgree (M : Model) (expr : Expr) : Prop :=
  ∀ guard thenExpr elseExpr pos, .cond guard thenExpr elseExpr pos ∈ expr.walked →
    SeemsBool thenExpr ∨ SeemsBool elseExpr → ∀ state env value,
      M.eval (.cond guard thenExpr elseExpr pos) state env = some value → M.HasSort .bool value

section Rules

variable {M : Model}

open Model (Refines)

/-- Sub-expressions can be simplified. -/
theorem refines_rebuild {expr : Expr} {f : Expr → Expr}
    (h : ∀ child ∈ expr.children, Refines (M.eval child) (M.eval (f child))) :
    Refines (M.eval expr) (M.eval (expr.rebuild (expr.children.map f))) := by
  have hlength : (expr.children.map f).length = expr.children.length := List.length_map f
  rw [Model.eval_eq, Model.eval_eq, Expr.children_rebuild hlength, Model.evalNode_rebuild hlength]
  apply Model.evalNode_refines
  rw [List.map_map, List.forall₂_map_left_iff, List.forall₂_map_right_iff, List.forall₂_same]
  exact h

/-- The kinds of connectives. -/
def IsConnective (kind : BinOpKind) : Prop := kind = .and ∨ kind = .or ∨ kind = .implies

variable {kind : BinOpKind} {left right : Expr} {pos pos' : Position}

theorem eval_connective (hkind : IsConnective kind) (state : M.State) (env : M.Env) :
    M.eval (.binOp kind left right pos) state env =
      (Model.shortOp kind (M.asBool (M.eval left state env))
        (M.asBool (M.eval right state env))).map .bool := by
  rw [Model.eval_eq]
  rcases hkind with rfl | rfl | rfl <;> rfl

theorem eval_not (arg : Expr) (state : M.State) (env : M.Env) :
    M.eval (.unaryOp .not arg pos) state env =
      (M.asBool (M.eval arg state env)).map fun b => .bool (!b) := by
  rw [Model.eval_eq]
  rfl

theorem eval_bool (b : Bool) (state : M.State) (env : M.Env) :
    M.eval (.const (.bool b) pos) state env = some (.bool b) := by
  rw [Model.eval_eq]
  rfl

/-- A Boolean result is the value itself. -/
theorem eq_of_map_asBool {result : Option (Val M.U)} {value : Val M.U}
    (h : (M.asBool result).map .bool = some value) : result = some value := by
  obtain ⟨b, hb, rfl⟩ := Option.map_eq_some_iff.mp h
  exact Model.asBool_eq_some_iff.mp hb

/-- A connective whose first operand does not matter. -/
theorem refines_right (hkind : IsConnective kind) {b : Bool} {constPos : Position}
    (h : ∀ result, Model.shortOp kind (some b) result = result) :
    Refines (M.eval (.binOp kind (.const (.bool b) constPos) right pos)) (M.eval right) := by
  intro state env value hvalue
  rw [eval_connective hkind, eval_bool] at hvalue
  change (Model.shortOp kind (some b) _).map .bool = some value at hvalue
  rw [h] at hvalue
  exact eq_of_map_asBool hvalue

/-- A connective whose second operand does not matter. -/
theorem refines_left (hkind : IsConnective kind) {b : Bool} {constPos : Position}
    (h : ∀ result, Model.shortOp kind result (some b) = result) :
    Refines (M.eval (.binOp kind left (.const (.bool b) constPos) pos)) (M.eval left) := by
  intro state env value hvalue
  rw [eval_connective hkind, eval_bool] at hvalue
  change (Model.shortOp kind _ (some b)).map .bool = some value at hvalue
  rw [h] at hvalue
  exact eq_of_map_asBool hvalue

/-- A connective that has only one value. -/
theorem refines_bool (hkind : IsConnective kind) {c : Bool}
    (h : ∀ state env b, Model.shortOp kind (M.asBool (M.eval left state env))
      (M.asBool (M.eval right state env)) = some b → b = c) :
    Refines (M.eval (.binOp kind left right pos)) (M.eval (Expr.ofBool c)) := by
  intro state env value hvalue
  rw [eval_connective hkind] at hvalue
  obtain ⟨b, hb, rfl⟩ := Option.map_eq_some_iff.mp hvalue
  rw [Expr.ofBool, eval_bool, h state env b hb]

theorem refines_ne :
    Refines (M.eval (.unaryOp .not (.binOp .eqCmp left right pos) pos'))
      (M.eval (.binOp .neCmp left right pos')) := by
  intro state env value hvalue
  rw [eval_not] at hvalue
  obtain ⟨b, hb, rfl⟩ := Option.map_eq_some_iff.mp hvalue
  rw [Model.asBool_eq_some_iff, Model.eval_eq] at hb
  obtain ⟨leftValue, hleft, hb⟩ := Option.bind_eq_some_iff.mp hb
  obtain ⟨rightValue, hright, hb⟩ := Option.bind_eq_some_iff.mp hb
  cases hb
  rw [Model.eval_eq]
  refine Option.bind_eq_some_iff.mpr ⟨leftValue, hleft, ?_⟩
  refine Option.bind_eq_some_iff.mpr ⟨rightValue, hright, ?_⟩
  simp [Model.strictOp]

/-- The second operand decides. -/
theorem shortOp_const {c : Bool} (h : ∀ b, Model.shortOp kind (some b) (some c) = some c ∧
      Model.shortOp kind none (some c) = none) {result : Option Bool} {b : Bool}
    (hb : Model.shortOp kind result (some c) = some b) : b = c := by
  cases result with
  | none =>
    rw [(h true).2] at hb
    cases hb
  | some b' =>
    rw [(h b').1] at hb
    cases hb
    rfl

/-- Every rule keeps the value. -/
theorem applyRules_refines (expr : Expr) : Refines (M.eval expr) (M.eval (applyRules expr)) := by
  fun_induction applyRules expr with
  | case1 b _ pos =>
    intro state env value hvalue
    rw [eval_not, eval_bool] at hvalue
    rw [eval_bool]
    exact hvalue
  | case2 left right _ pos => exact refines_ne
  | case3 b _ b' _ pos =>
    intro state env value hvalue
    rw [eval_connective (.inl rfl), eval_bool, eval_bool] at hvalue
    rw [eval_bool, ← hvalue]
    cases b <;> rfl
  | case4 => exact refines_right (.inl rfl) fun _ => rfl
  | case5 b _ _ _ _ hb =>
    apply refines_bool (.inl rfl)
    intro state env b' h
    rw [eval_bool, Bool.not_eq_true _ |>.mp hb] at h
    cases h
    rfl
  | case6 =>
    apply refines_left (.inl rfl)
    intro result
    rcases result with _ | (_ | _) <;> rfl
  | case7 _ b _ _ _ hb =>
    apply refines_bool (.inl rfl)
    intro state env b' h
    rw [eval_bool, Bool.not_eq_true _ |>.mp hb] at h
    exact shortOp_const (by decide) h
  | case8 =>
    apply refines_bool (.inr (.inl rfl))
    intro state env b' h
    rw [eval_bool] at h
    cases h
    rfl
  | case9 b _ _ _ hb =>
    rw [Bool.not_eq_true _ |>.mp hb]
    exact refines_right (.inr (.inl rfl)) fun _ => rfl
  | case10 =>
    apply refines_bool (.inr (.inl rfl))
    intro state env b' h
    rw [eval_bool] at h
    exact shortOp_const (by decide) h
  | case11 _ b _ _ _ hb =>
    rw [Bool.not_eq_true _ |>.mp hb]
    apply refines_left (.inr (.inl rfl))
    intro result
    rcases result with _ | (_ | _) <;> rfl
  | case12 =>
    apply refines_bool (.inr (.inr rfl))
    intro state env b' h
    rw [eval_bool] at h
    exact shortOp_const (by decide) h
  | case13 guard b _ pos hb =>
    intro state env value hvalue
    rw [eval_connective (.inr (.inr rfl)), eval_bool, Bool.not_eq_true _ |>.mp hb] at hvalue
    rw [eval_not]
    change (Model.shortOp .implies _ (some false)).map _ = _ at hvalue
    cases hguard : M.asBool (M.eval guard state env) with
    | none => rw [hguard] at hvalue; cases hvalue
    | some b => rw [hguard] at hvalue; cases b <;> exact hvalue
  | case14 => exact refines_right (.inr (.inr rfl)) fun _ => rfl
  | case15 b _ _ _ _ hb =>
    apply refines_bool (.inr (.inr rfl))
    intro state env b' h
    rw [eval_bool, Bool.not_eq_true _ |>.mp hb] at h
    cases h
    rfl
  | case16 left right pos _ _ _ ihleft ihright =>
    have hchildren : ∀ child ∈ (Expr.binOp .and left right pos).children,
        Refines (M.eval child) (M.eval (applyRules child)) := by
      intro child hchild
      rcases List.mem_cons.mp hchild with rfl | hchild
      · exact ihleft
      · rw [List.mem_singleton.mp hchild]
        exact ihright
    exact refines_rebuild hchildren
  | case17 expr => exact Refines.refl _

end Rules

section Conditionals

variable {M : Model} {den : M.Den} {guard thenExpr elseExpr : Expr}
  {pos : Position}

/-- A conditional over Booleans is two implications. -/
theorem refines_implications (h : Model.Refines den (M.eval (.cond guard thenExpr elseExpr pos)))
    (hbool : ∀ state env value, den state env = some value → M.HasSort .bool value) :
    Model.Refines den
      (M.eval (.binOp .and (.binOp .implies guard thenExpr pos)
        (.binOp .implies (.unaryOp .not guard pos) elseExpr pos) pos)) := by
  intro state env value hvalue
  obtain ⟨b', rfl⟩ := hbool state env value hvalue
  have hcond := h state env _ hvalue
  rw [Model.eval_eq] at hcond
  obtain ⟨b, hb, hcond⟩ := Option.bind_eq_some_iff.mp hcond
  rw [eval_connective (.inl rfl), eval_connective (.inr (.inr rfl)),
    eval_connective (.inr (.inr rfl)), eval_not, hb]
  cases b with
  | true =>
    have hthen : M.eval thenExpr state env = some (.bool b') := hcond
    rw [Model.asBool_eq_some_iff.mpr hthen]
    cases b' <;> rfl
  | false =>
    have helse : M.eval elseExpr state env = some (.bool b') := hcond
    rw [Model.asBool_eq_some_iff.mpr helse]
    rfl

theorem foldCond_refines (h : Model.Refines den (M.eval (.cond guard thenExpr elseExpr pos)))
    (hbool : isBool thenExpr = true ∨ isBool elseExpr = true →
      ∀ state env value, den state env = some value → M.HasSort .bool value) :
    Model.Refines den (M.eval (foldCond guard thenExpr elseExpr pos)) := by
  unfold foldCond
  split
  · next hsplit =>
      rw [Bool.or_eq_true] at hsplit
      exact refines_implications h (hbool hsplit)
  · exact h

theorem simplify_eq_cond (guard thenExpr elseExpr : Expr) (pos : Position) :
    simplify (.cond guard thenExpr elseExpr pos) =
      applyRules (applyRules (foldCond (simplify guard) (simplify thenExpr)
        (simplify elseExpr) pos)) := by
  unfold simplify
  rw [Expr.para_eq]
  rfl

theorem simplify_eq {expr : Expr}
    (h : ∀ guard thenExpr elseExpr pos, expr ≠ .cond guard thenExpr elseExpr pos) :
    simplify expr = applyRules (expr.rebuild (expr.children.map simplify)) := by
  unfold simplify
  rw [Expr.para_eq]
  split
  · next guard thenExpr elseExpr pos _ _ _ _ =>
      exact absurd rfl (h guard thenExpr elseExpr pos)
  · rfl

/-- The syntactic test looks through labels and unfoldings. -/
theorem isBool_of_isBool_old {label : String} {base : Expr}
    (h : isBool (.labelledOld label base pos) = true) : isBool base = true := by
  unfold isBool at h ⊢
  split at h
  · next hplace =>
      rw [Expr.isPlace] at hplace
      rw [if_pos hplace]
      exact h
  · cases h

theorem isBool_of_isBool_unfolding {name : String} {args : List Expr} {base : Expr}
    {perm : PermAmount} {index : Option EnumVariantIndex}
    (h : isBool (.unfolding name args base perm index pos) = true) :
    isBool base = true := by
  unfold isBool at h ⊢
  split at h
  · next hplace =>
      rw [Expr.isPlace] at hplace
      rw [if_pos hplace]
      exact h
  · cases h

/-- The type of a place that is not an old or unfolded one is written down. -/
theorem typ_of_isBool {expr : Expr} {typ : Typ} (htyp : expr.getType = some typ)
    (hplace : expr.isPlace = false → isBool expr = false)
    (h : isBool expr = true) : typ = .bool := by
  cases hexpr : expr.isPlace with
  | false =>
    rw [hplace hexpr] at h
    cases h
  | true =>
    unfold isBool at h
    rw [if_pos hexpr, htyp] at h
    cases typ <;> first
      | rfl
      | cases h

theorem BranchesAgree.child {expr child : Expr} (h : BranchesAgree M expr)
    (hchild : child ∈ expr.children) : BranchesAgree M child :=
  fun guard thenExpr elseExpr pos hmem =>
    h guard thenExpr elseExpr pos (Expr.mem_walked_iff.mpr (.inr ⟨child, hchild, hmem⟩))

/-- What the syntactic test finds out about the result holds of the original
expression. -/
theorem seemsBool_of_isBool_simplify (expr : Expr) (h : isBool (simplify expr) = true) :
    SeemsBool expr := by
  induction expr using Expr.children_induction with
  | h expr ih _ =>
  cases expr with
  | cond guard thenExpr elseExpr pos =>
    rw [simplify_eq_cond] at h
    unfold foldCond at h
    split at h
    · next hsplit =>
        rw [Bool.or_eq_true] at hsplit
        rcases hsplit with hthen | helse
        · exact .thenBranch (ih thenExpr (by simp [Expr.children]) hthen)
        · exact .elseBranch (ih elseExpr (by simp [Expr.children]) helse)
    · cases h
  | labelledOld label base pos =>
    rw [simplify_eq (by simp)] at h
    exact .old (ih base List.mem_cons_self (isBool_of_isBool_old h))
  | unfolding name args base perm index pos =>
    rw [simplify_eq (by simp)] at h
    simp only [Expr.children, List.map_append, List.map_cons, List.map_nil,
      Expr.rebuild, applyRules, List.getLastD_eq_getLast?, List.getLast?_append,
      List.getLast?_singleton, Option.some_or, Option.getD_some] at h
    exact .unfolding (ih base (by simp [Expr.children]) (isBool_of_isBool_unfolding h))
  | localVar | variant | field | addrOf =>
    rw [simplify_eq (by simp)] at h
    refine .typed (congrArg some (typ_of_isBool rfl (fun hplace => ?_) h))
    unfold isBool
    rw [if_neg (by rw [hplace]; decide)]
    rfl
  | forAll | exist | magicWand | predicateAccessPredicate | fieldAccessPredicate
  | inhaleExhale => exact .typed rfl
  | const const =>
    rw [simplify_eq (by simp)] at h
    cases const <;> first
      | exact .typed rfl
      | cases h
  | unaryOp kind =>
    cases kind with
    | not => exact .typed rfl
    | minus =>
      rw [simplify_eq (by simp)] at h
      cases h
  | binOp kind =>
    rw [simplify_eq (by simp)] at h
    cases kind <;> first
      | exact .typed rfl
      | cases h
  | funcApp name args formalArgs typ =>
    rw [simplify_eq (by simp)] at h
    cases typ <;> first
      | exact .typed rfl
      | cases h
  | containerOp | seq | letExpr | domainFuncApp | downcast | snapApp =>
    rw [simplify_eq (by simp)] at h
    cases h

/-- The values of an expression whose conditionals agree stay. -/
theorem simplify_refines (expr : Expr) (hagree : BranchesAgree M expr) :
    Model.Refines (M.eval expr) (M.eval (simplify expr)) := by
  induction expr using Expr.children_induction with
  | h expr ih _ =>
  have hrebuild : Model.Refines (M.eval expr)
      (M.eval (expr.rebuild (expr.children.map simplify))) :=
    refines_rebuild fun child hchild => ih child hchild (hagree.child hchild)
  by_cases hcond : ∃ guard thenExpr elseExpr pos, expr = .cond guard thenExpr elseExpr pos
  · obtain ⟨guard, thenExpr, elseExpr, pos, rfl⟩ := hcond
    rw [simplify_eq_cond]
    refine Model.Refines.trans (foldCond_refines hrebuild ?_)
      ((applyRules_refines _).trans (applyRules_refines _))
    intro hbool
    exact hagree _ _ _ _ (Expr.mem_walked_iff.mpr (.inl rfl))
      (hbool.imp (seemsBool_of_isBool_simplify _) (seemsBool_of_isBool_simplify _))
  · rw [simplify_eq]
    · exact hrebuild.trans (applyRules_refines _)
    · intro guard thenExpr elseExpr pos heq
      exact hcond ⟨guard, thenExpr, elseExpr, pos, heq⟩

/-- The simplifier preserves values, if the branches of the conditionals agree. -/
theorem simplify_preserves_value (M : Model) (expr : Expr)
    (hagree : BranchesAgree M expr) (state : M.State) (env : M.Env)
    (value : Val M.U) (hvalue : M.eval expr state env = some value) :
    M.eval (simplify expr) state env = some value :=
  simplify_refines expr hagree state env value hvalue

end Conditionals

namespace Witness

/-- One reference, nothing on the heap. -/
def emptyModel : Model where
  U := Unit
  State := Unit
  carrier _ := Set.univ
  fnPtr := ()
  field _ _ _ := none
  variant _ _ _ := none
  addrOf _ _ _ := none
  snap _ _ := none
  old _ state := some state
  unfolding _ _ _ _ state := some state
  func _ _ _ _ _ := none
  domainFunc _ _ := none

/-- `b ? !(1 == 2) : false` -/
def conditional : Expr :=
  .cond (.localVar ⟨"b", .bool⟩ Position.default)
    (.unaryOp .not (.binOp .eqCmp (Expr.ofInt 1) (Expr.ofInt 2) Position.default) Position.default)
    (Expr.ofBool false) Position.default

theorem simplify_preserves_value_conditional :
    BranchesAgree emptyModel conditional ∧
      emptyModel.eval conditional () (fun _ => some (.bool true)) = some (.bool true) ∧
      emptyModel.eval (simplify conditional) () (fun _ => some (.bool true)) =
        some (.bool true) := by
  have hagree : BranchesAgree emptyModel conditional := by
    intro guard thenExpr elseExpr pos hmem _ state env value hvalue
    simp only [conditional, Expr.walked, Expr.para, Expr.ofInt, Expr.ofBool, List.mem_cons] at hmem
    simp at hmem
    obtain ⟨rfl, rfl, rfl, rfl⟩ := hmem
    exact Model.hasSort_of_eval _ (by decide) hvalue
  have hvalue : emptyModel.eval conditional () (fun _ => some (.bool true)) =
      some (.bool true) := by
    have hvar : emptyModel.typed .bool (some (.bool true)) = some (.bool true) :=
      Model.typed_eq_some_iff.mpr ⟨rfl, true, rfl⟩
    simp [conditional, Model.eval, Expr.para, Model.evalNode, hvar, Model.asBool,
      Model.strictOp, Expr.ofInt]
  exact ⟨hagree, hvalue, simplify_preserves_value _ _ hagree _ _ _ hvalue⟩

/-- `b ? 1 : true` is 1 where `b` holds; it is simplified to `b ==> 1`, which has no
value there. -/
theorem not_simplify_preserves_value :
    ¬∀ (M : Model) (expr : Expr) (state : M.State) (env : M.Env) (value : Val M.U),
      M.eval expr state env = some value → M.eval (simplify expr) state env = some value := by
  intro h
  have hvar : emptyModel.typed .bool (some (.bool true)) = some (.bool true) :=
    Model.typed_eq_some_iff.mpr ⟨rfl, true, rfl⟩
  have hvalue := h emptyModel (.cond (.localVar ⟨"b", .bool⟩ Position.default) (Expr.ofInt 1)
    (Expr.ofBool true) Position.default) () (fun _ => some (.bool true)) (.int 1)
    (by simp [Model.eval, Expr.para, Model.evalNode, hvar, Model.asBool, Expr.ofInt])
  change emptyModel.eval (.binOp .implies (.localVar ⟨"b", .bool⟩ Position.default)
    (Expr.ofInt 1) Position.default) () _ = _ at hvalue
  simp [Model.eval, Expr.para, Model.evalNode, hvar, Model.asBool, Model.shortOp,
    Expr.ofInt] at hvalue

end Witness

end Prusti.Optimizations

/-
The ranges of purified integers: what is assumed and asserted in place of a
predicate, against what the predicate says about its value.
-/
import Prusti.Optimizations.Purifier

namespace Prusti.Optimizations

open Prusti.Vir Prusti.Cfg Prusti.Lib Prusti.Encoder

/-- The purifier replaces the predicate of a variable: in an expression, or in a
statement that folds or unfolds it. -/
inductive ReplacesPredicate (method : CfgMethod) (name : String) (var : LocalVar) : Prop where
  | access {expr : Expr} {pos pos' : Position} {perm : PermAmount} (hexpr : expr ∈ method.stmtExprs)
      (hnode : .predicateAccessPredicate name (.localVar var pos) perm pos' ∈
        expr.walked) : ReplacesPredicate method name var
  | unfold {pos : Position} {perm : PermAmount} {index : Option EnumVariantIndex}
      (hstmt : .unfold name [.localVar var pos] perm index ∈
        Stmt.allNested method.stmts) : ReplacesPredicate method name var
  | fold {pos pos' : Position} {perm : PermAmount} {index : Option EnumVariantIndex}
      (hstmt : .fold name [.localVar var pos] perm index pos' ∈
        Stmt.allNested method.stmts) : ReplacesPredicate method name var

/-- A predicate of a purified variable that is replaced, and the integer variable
that replaces it. -/
structure Replaced (method : CfgMethod) (state : VarCollector) (name : String)
    (var replacement : LocalVar) : Prop where
  replaces : ReplacesPredicate method name var
  purifiable : isPurifiablePredicate name = true
  purified : state.isPurified var = true
  target : state.replacements.get? var = some replacement
  typ : replacement.typ = .int

/-- The bounds hold of an integer variable exactly when the predicate of the type
admits its value. -/
def SameRange (settings : BoundSettings) (ty : PrimitiveTy) (var bounds : Expr) : Prop :=
  ∀ (M : Model) (state state' : M.State) (env env' : M.Env) (n : Int),
    M.eval ty.valueLoc state env = some (.int n) →
    M.eval var state' env' = some (.int n) →
      (M.eval bounds state' env' = some (.bool true) ↔
        ∀ conjunct ∈ ty.valueConjuncts settings, M.eval conjunct state env = some (.bool true))

/-- What is assumed and asserted in place of the predicate of a variable is the range
of the type. -/
structure KeepsRange (settings : BoundSettings) (state : VarCollector) (name : String)
    (var : LocalVar) (replacement bounds : Expr) (pos : Position) : Prop where
  access : ∀ perm pos', purifyExpr settings state
    (.predicateAccessPredicate name (.localVar var pos) perm pos') = some bounds
  unfold : ∀ perm index, purifyStmt settings state
    (.unfold name [.localVar var pos] perm index) = some (.inhale bounds)
  fold : ∀ perm index pos', purifyStmt settings state
    (.fold name [.localVar var pos] perm index pos') = some (.assert bounds pos')
  range : ∀ ty : PrimitiveTy, ty.encodePredicateUse = name →
    SameRange settings ty replacement bounds

/-- The pass keeps the ranges of the variables that it purifies. -/
def KeepsRanges (settings : BoundSettings) (method : CfgMethod) : Prop :=
  ∀ state, collectVars method = some state →
    ∀ name var replacement, Replaced method state name var replacement → ∀ pos,
      ∃ bounds, KeepsRange settings state name var (.localVar replacement pos) bounds pos

section Range

variable {M : Model} {state : M.State} {env : M.Env} {n : Int}

/-- The bounds of a replacement are always those of `usize`. -/
theorem replacementBounds_hold_iff (settings : BoundSettings) {var : Expr}
    (hvar : M.eval var state env = some (.int n)) :
    M.eval (replacementBounds settings var) state env = some (.bool true) ↔
      n ∈ (PrimitiveTy.uint .usize).admitted settings := by
  obtain ⟨checkOverflows, encodeUnsigned, width⟩ := settings
  have hlower := PrimitiveTy.eval_geCmp hvar (PrimitiveTy.eval_ofInt 0)
  cases checkOverflows with
  | true =>
    have hupper := PrimitiveTy.eval_geCmp (PrimitiveTy.eval_bigIntConst (2 ^ width - 1)) hvar
    change M.eval (Expr.mkAnd _ (Expr.mkBinOp .geCmp (bigIntConst (2 ^ width - 1)) var))
      state env = _ ↔ _
    rw [PrimitiveTy.eval_mkAnd hlower hupper]
    simp [PrimitiveTy.admitted, UintTy.width]
  | false =>
    cases encodeUnsigned with
    | true =>
      change M.eval (Expr.mkBinOp _ _ _) state env = _ ↔ _
      rw [hlower]
      simp [PrimitiveTy.admitted]
    | false =>
      change M.eval (Expr.ofBool true) state env = _ ↔ _
      rw [Model.eval_eq]
      simp [PrimitiveTy.admitted, Expr.ofBool, Model.evalNode]

/-- A model in which every field is the same integer. -/
def constantModel (n : Int) : Model where
  U := Unit
  State := Unit
  carrier _ := Set.univ
  fnPtr := ()
  field _ _ _ := some (.int n)
  variant _ _ _ := none
  addrOf _ _ _ := none
  snap _ _ := none
  old _ state := some state
  unfolding _ _ _ _ state := some state
  func _ _ _ _ _ := none
  domainFunc _ _ := none

/-- The ranges agree exactly when the type admits what `usize` admits. -/
theorem sameRange_iff (settings : BoundSettings) (ty : PrimitiveTy)
    (hty : ty.encodeValueField.typ = .int) {replacement : LocalVar}
    (htyp : replacement.typ = .int) (pos : Position) :
    SameRange settings ty (.localVar replacement pos)
        (replacementBounds settings (.localVar replacement pos)) ↔
      ty.admitted settings = (PrimitiveTy.uint .usize).admitted settings := by
  constructor
  · intro hsame
    ext n
    have hvalue : (constantModel n).eval ty.valueLoc ()
        (fun _ => some (.other ())) = some (.int n) := by
      have hself : (constantModel n).eval
          (Expr.ofLocal ⟨"self", .typedRef ty.encodePredicateUse⟩) ()
            (fun _ => some (.other ())) = some (.other ()) := by
        rw [Model.eval_eq]
        exact Model.typed_eq_some_iff.mpr ⟨rfl, (), trivial, rfl⟩
      rw [Model.eval_eq]
      change (constantModel n).typed ty.encodeValueField.typ
        (((constantModel n).eval _ () _).bind _) = _
      rw [hself, hty]
      exact Model.typed_eq_some_iff.mpr ⟨rfl, n, rfl⟩
    have hvar : (constantModel n).eval (.localVar replacement pos) ()
        (fun _ => some (.int n)) = some (.int n) := by
      rw [Model.eval_eq]
      change (constantModel n).typed replacement.typ (some (.int n)) = _
      rw [htyp]
      exact Model.typed_eq_some_iff.mpr ⟨rfl, n, rfl⟩
    rw [← PrimitiveTy.valueConjuncts_hold_iff settings ty hvalue,
      ← replacementBounds_hold_iff settings hvar]
    exact (hsame _ _ _ _ _ n hvalue hvar).symm
  · intro heq M state state' env env' n hvalue hvar
    rw [PrimitiveTy.valueConjuncts_hold_iff settings ty hvalue,
      replacementBounds_hold_iff settings hvar, heq]

theorem isPurifiablePredicate_iff (name : String) :
    isPurifiablePredicate name = true ↔ name = "usize" ∨ name = "isize" := by
  simp [isPurifiablePredicate]

/-- The type of a purifiable predicate. -/
theorem ty_of_purifiable {ty : PrimitiveTy}
    (h : isPurifiablePredicate ty.encodePredicateUse = true) :
    ty = .uint .usize ∨ ty = .int .isize := by
  cases ty with
  | bool | char => cases h
  | int ty => cases ty <;> first
      | exact .inr rfl
      | cases h
  | uint ty => cases ty <;> first
      | exact .inl rfl
      | cases h

/-- `isize` is not `usize` once there are bounds. -/
theorem admitted_isize_eq_iff (settings : BoundSettings) :
    (PrimitiveTy.int .isize).admitted settings = (PrimitiveTy.uint .usize).admitted settings ↔
      settings.checkOverflows = false ∧ settings.encodeUnsignedNumConstraint = false := by
  obtain ⟨checkOverflows, encodeUnsigned, width⟩ := settings
  have hneg : ∀ set : Set Int, (-1 : Int) ∈ set → ∀ set' : Set Int, (-1 : Int) ∉ set' →
      set ≠ set' := by
    rintro set hmem set' hnot rfl
    exact hnot hmem
  cases checkOverflows with
  | true =>
    simp only [Bool.true_eq_false, false_and, iff_false]
    apply hneg
    · have hpow : (0 : Int) < 2 ^ (width - 1) := by positivity
      simp only [PrimitiveTy.admitted, IntTy.width, if_true, Set.mem_Icc]
      omega
    · simp [PrimitiveTy.admitted]
  | false =>
    cases encodeUnsigned with
    | true =>
      simp only [Bool.true_eq_false, and_false, iff_false]
      apply hneg
      · simp [PrimitiveTy.admitted]
      · simp [PrimitiveTy.admitted]
    | false => simp [PrimitiveTy.admitted]

end Range

section Keeps

variable {settings : BoundSettings} {method : CfgMethod} {state : VarCollector}
  {name : String} {var replacement : LocalVar}

/-- What is assumed and asserted in place of the predicate of a purified variable. -/
theorem getReplacementBounds_of_replaced
    (h : Replaced method state name var replacement) (pos : Position) :
    getReplacementBounds settings state (.localVar var pos) =
      some (replacementBounds settings (.localVar replacement pos)) := by
  rw [getReplacementBounds, getReplacement, h.target]
  rfl

theorem keepsRange_iff (h : Replaced method state name var replacement) (pos : Position)
    (bounds : Expr) :
    KeepsRange settings state name var (.localVar replacement pos) bounds pos ↔
      bounds = replacementBounds settings (.localVar replacement pos) ∧
        ∀ ty : PrimitiveTy, ty.encodePredicateUse = name →
          SameRange settings ty (.localVar replacement pos) bounds := by
  have hpure : (isPurifiablePredicate name && isPure state (.localVar var pos)) = true := by
    rw [h.purifiable]
    exact h.purified
  have haccess : ∀ perm pos', purifyExpr settings state
      (.predicateAccessPredicate name (.localVar var pos) perm pos') =
        some (replacementBounds settings (.localVar replacement pos)) := by
    intro perm pos'
    unfold purifyExpr
    rw [Expr.para_eq]
    unfold purifyNode
    simp only [hpure, if_true]
    exact getReplacementBounds_of_replaced h pos
  constructor
  · intro hkeeps
    refine ⟨?_, hkeeps.range⟩
    have heq := hkeeps.access .write Position.default
    rw [haccess] at heq
    cases heq
    rfl
  · rintro ⟨rfl, hrange⟩
    refine ⟨haccess, fun perm index => ?_, fun perm index pos' => ?_, hrange⟩
    · rw [purifyStmt, if_pos hpure, getReplacementBounds_of_replaced h pos]
      rfl
    · rw [purifyStmt, if_pos hpure, getReplacementBounds_of_replaced h pos]
      rfl

/-- The pass keeps the ranges exactly when it purifies no `isize`, or when there are
no bounds at all. -/
theorem purifyVars_keepsRanges_iff (settings : BoundSettings) (method : CfgMethod) :
    KeepsRanges settings method ↔
      ∀ state, collectVars method = some state →
        ∀ name var replacement, Replaced method state name var replacement →
          name = "usize" ∨ settings.checkOverflows = false ∧
            settings.encodeUnsignedNumConstraint = false := by
  refine forall₂_congr fun state _ => forall₄_congr fun name var replacement h => ?_
  constructor
  · intro hkeeps
    obtain ⟨bounds, hkeeps⟩ := hkeeps Position.default
    obtain ⟨rfl, hrange⟩ := (keepsRange_iff h _ bounds).mp hkeeps
    rcases (isPurifiablePredicate_iff name).mp h.purifiable with hname | hname
    · exact .inl hname
    · right
      have hsame := hrange (.int .isize) hname.symm
      rw [sameRange_iff settings _ rfl h.typ] at hsame
      exact (admitted_isize_eq_iff settings).mp hsame
  · intro hcond pos
    refine ⟨_, (keepsRange_iff h pos _).mpr ⟨rfl, ?_⟩⟩
    rintro ty rfl
    rcases ty_of_purifiable h.purifiable with rfl | rfl
    · rw [sameRange_iff settings _ rfl h.typ]
    · rw [sameRange_iff settings _ rfl h.typ, admitted_isize_eq_iff]
      rcases hcond with hname | hcond
      · exact absurd hname (by decide)
      · exact hcond

end Keeps

namespace Witness

def offsetVar : LocalVar := ⟨"_1", .typedRef "isize"⟩

/-- `inhale isize(_1)` -/
def inhaleIsize : CfgMethod :=
  { CfgMethod.new 0 "m" 0 [] [offsetVar] [] with
    basicBlocks := [⟨[.inhale (.predicateAccessPredicate "isize"
      (Expr.ofLocal offsetVar) .write Position.default)], .ret⟩] }

/-- Bounds are checked, on a machine with 64 bits. -/
def overflowSettings : BoundSettings := ⟨true, false, 64⟩

/-- What the collector finds. -/
def isizeState : VarCollector where
  allVars := HashSet.insert HashMap.empty offsetVar
  impureVars := HashSet.insert HashMap.empty ⟨"_0", .typedRef ""⟩
  replacements := HashMap.empty.insert offsetVar ⟨"_1", .int⟩

theorem collectVars_inhaleIsize : collectVars inhaleIsize = some isizeState := rfl

theorem replaced_isize : Replaced inhaleIsize isizeState "isize" offsetVar ⟨"_1", .int⟩ where
  replaces := .access List.mem_cons_self List.mem_cons_self
  purifiable := by decide
  purified := by decide
  target := rfl
  typ := rfl

/-- Minus one is an `isize`, but it is not within the bounds of the purified
variable. -/
theorem purifyVars_changes_isize_range : ¬ KeepsRanges overflowSettings inhaleIsize := by
  intro h
  obtain ⟨bounds, hkeeps⟩ := h _ collectVars_inhaleIsize _ _ _ replaced_isize Position.default
  obtain ⟨rfl, hrange⟩ := (keepsRange_iff replaced_isize _ bounds).mp hkeeps
  have hsame := hrange (.int .isize) rfl
  rw [sameRange_iff overflowSettings _ rfl rfl, admitted_isize_eq_iff] at hsame
  exact absurd hsame.1 (by decide)

end Witness

end Prusti.Optimizations

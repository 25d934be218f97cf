/-
The inliner of constant functions: functions whose body is a constant are
removed, and their applications are replaced by the constant.
-/
import Prusti.Vir.Interp
import Prusti.Cfg.Exprs

namespace Prusti.Optimizations

open Prusti.Vir Prusti.Cfg Prusti.Lib

def isOnlyPermissions : Expr → Bool
  | .predicateAccessPredicate _ _ _ _ | .fieldAccessPredicate _ _ _ => true
  | .binOp .and left right _ => isOnlyPermissions left && isOnlyPermissions right
  | _ => false

/-- Is this expression a constant? -/
def isConstant : Expr → Bool
  | .const _ _ => true
  | .unaryOp _ arg _ => isConstant arg
  | .binOp _ left right _ => isConstant left && isConstant right
  | _ => false

/-- Does the function have a body that depends neither on its parameters nor on
the heap? -/
def hasConstantBody (function : Function) : Bool :=
  match function.body with
  | some expr => isConstant expr
  | none => false

/-- The body of a function that can be converted to a pure one by removing the
permissions from the precondition. -/
def tryPurify (function : Function) : Option Expr :=
  if hasConstantBody function then
    if function.pres.all isOnlyPermissions && function.posts.isEmpty then
      function.body
    else none
  else none

abbrev PureFunctionMap := HashMap String Expr

/-- Inline all calls to constant functions, and drop the unfoldings around
constants. -/
def inlineExpr (map : PureFunctionMap) (expr : Expr) : Expr :=
  expr.para fun node parts _ =>
    match node with
    | .funcApp name _ _ _ _ =>
      match map.get? name with
      | some body => body
      | none => node.rebuild parts
    | .unfolding _ _ base _ _ _ =>
      let body := parts.getLastD base
      if isConstant body then body else node.rebuild parts
    | node => node.rebuild parts

def inlineInto (map : PureFunctionMap) (function : Function) : Function :=
  { function with body := function.body.map (inlineExpr map) }

def inlineIntoMethods (methods : List CfgMethod) (map : PureFunctionMap) : List CfgMethod :=
  methods.map (CfgMethod.mapStmts (Stmt.mapExprs (inlineExpr map)))

/-- One pass over the functions: the constant ones go to the map.  Has one been
found? -/
def purifyRound : List Function → PureFunctionMap → PureFunctionMap × List Function × Bool
  | [], map => (map, [], false)
  | function :: functions, map =>
    match tryPurify function with
    | some body =>
      let (map', nonPure, _) := purifyRound functions (map.insert function.name body)
      (map', nonPure, true)
    | none =>
      let (map', nonPure, changed) := purifyRound functions map
      (map', function :: nonPure, changed)

/-- The functions that a pass leaves. -/
theorem purifyRound_nonPure (functions : List Function) (map : PureFunctionMap) :
    (purifyRound functions map).2.1 =
      functions.filter fun function => (tryPurify function).isNone := by
  induction functions generalizing map with
  | nil => rfl
  | cons function functions ih =>
    rw [purifyRound, List.filter_cons]
    cases htry : tryPurify function with
    | some body => exact ih _
    | none => exact congrArg (function :: ·) (ih _)

theorem purifyRound_changed (functions : List Function) (map : PureFunctionMap) :
    (purifyRound functions map).2.2 =
      functions.any fun function => (tryPurify function).isSome := by
  induction functions generalizing map with
  | nil => rfl
  | cons function functions ih =>
    rw [purifyRound, List.any_cons]
    cases htry : tryPurify function with
    | some body => rfl
    | none => exact ih _

theorem purifyRound_length_lt (functions : List Function) (map : PureFunctionMap)
    (h : (purifyRound functions map).2.2 = true) :
    (purifyRound functions map).2.1.length < functions.length := by
  rw [purifyRound_changed, List.any_eq_true] at h
  obtain ⟨function, hmem, hsome⟩ := h
  rw [purifyRound_nonPure]
  apply List.length_filter_lt_length_iff_exists.mpr
  refine ⟨function, hmem, ?_⟩
  rw [Option.isNone_iff_eq_none]
  intro hnone
  rw [hnone] at hsome
  cases hsome

/-- The passes until nothing changes any more. -/
def purifyLoop (functions : List Function) (map : PureFunctionMap) :
    PureFunctionMap × List Function :=
  let round := purifyRound functions map
  let functions' := round.2.1.map (inlineInto round.1)
  if _h : round.2.2 = true then purifyLoop functions' round.1
  else (round.1, functions')
termination_by functions.length
decreasing_by
  rw [List.length_map]
  exact purifyRound_length_lt functions map _h

/-- Inline the functions whose body does not depend on the arguments. -/
def inlineConstantFunctions (methods : List CfgMethod)
    (functions : List Function) : List CfgMethod × List Function :=
  let (map, functions') := purifyLoop functions HashMap.empty
  (inlineIntoMethods methods map, functions')

/-- The name of the applied function. -/
def callName? : Expr → Option String
  | .funcApp name _ _ _ _ => some name
  | _ => none

/-- The names of the functions that are applied in an expression, anywhere. -/
def callNames (expr : Expr) : List String := expr.nodes.filterMap callName?

section Calls

variable {expr : Expr} {name : String}

theorem mem_callNames_iff :
    name ∈ callNames expr ↔ callName? expr = some name ∨
      (∃ child ∈ expr.children, name ∈ callNames child) ∨
        ∃ trigger ∈ expr.triggers, ∃ part ∈ trigger, name ∈ callNames part := by
  simp only [callNames, List.mem_filterMap]
  constructor
  · rintro ⟨node, hnode, hname⟩
    rcases Expr.mem_nodes_iff.mp hnode with rfl | ⟨child, hchild, hnode⟩ |
      ⟨trigger, ht, part, hpart, hnode⟩
    · exact .inl hname
    · exact .inr (.inl ⟨child, hchild, node, hnode, hname⟩)
    · exact .inr (.inr ⟨trigger, ht, part, hpart, node, hnode, hname⟩)
  · rintro (hname | ⟨child, hchild, node, hnode, hname⟩ |
      ⟨trigger, ht, part, hpart, node, hnode, hname⟩)
    · exact ⟨expr, Expr.mem_nodes_iff.mpr (.inl rfl), hname⟩
    · exact ⟨node, Expr.mem_nodes_iff.mpr (.inr (.inl ⟨child, hchild, hnode⟩)), hname⟩
    · exact ⟨node, Expr.mem_nodes_iff.mpr (.inr (.inr ⟨trigger, ht, part, hpart, hnode⟩)), hname⟩

theorem callName?_rebuild {parts : List Expr} (h : parts.length = expr.children.length) :
    callName? (expr.rebuild parts) = callName? expr :=
  Expr.apply_rebuild (by intro expr; cases expr <;> rfl) h

/-- The calls of a node whose sub-expressions have been folded. -/
theorem mem_callNames_rebuild (f : Expr → Expr) :
    name ∈ callNames (expr.rebuild (expr.children.map f)) ↔
      callName? expr = some name ∨
        (∃ child ∈ expr.children, name ∈ callNames (f child)) ∨
          ∃ trigger ∈ expr.triggers, ∃ part ∈ trigger, name ∈ callNames part := by
  have hlength : (expr.children.map f).length = expr.children.length := List.length_map f
  rw [mem_callNames_iff, callName?_rebuild hlength, Expr.children_rebuild hlength,
    Expr.triggers_rebuild hlength]
  simp only [List.mem_map, exists_exists_and_eq_and]

/-- Nothing is called in a constant. -/
theorem callNames_of_isConstant (h : isConstant expr = true) : name ∉ callNames expr := by
  induction expr using Expr.children_induction with
  | h expr ih _ =>
  rw [mem_callNames_iff]
  cases expr with
  | const => simp [callName?, Expr.children, Expr.triggers]
  | unaryOp kind arg =>
    have harg := ih arg List.mem_cons_self h
    simpa [callName?, Expr.children, Expr.triggers] using harg
  | binOp kind left right =>
    rw [isConstant, Bool.and_eq_true] at h
    have hleft := ih left List.mem_cons_self h.1
    have hright := ih right (List.mem_cons_of_mem _ List.mem_cons_self) h.2
    simpa [callName?, Expr.children, Expr.triggers] using ⟨hleft, hright⟩
  | _ => cases h

end Calls

section Inlining

variable {map map' : PureFunctionMap}

/-- The functions of a map are constants. -/
def ConstantMap (map : PureFunctionMap) : Prop :=
  ∀ name body, map.get? name = some body → isConstant body = true

/-- Is the expression reduced to a constant? -/
def reducesBy (map : PureFunctionMap) : Expr → Bool
  | .const _ _ => true
  | .unaryOp _ arg _ => reducesBy map arg
  | .binOp _ left right _ => reducesBy map left && reducesBy map right
  | .funcApp name _ _ _ _ => map.contains name
  | .unfolding _ _ base _ _ _ => reducesBy map base
  | _ => false

theorem inlineExpr_eq (map : PureFunctionMap) (expr : Expr) :
    inlineExpr map expr =
      match expr with
      | .funcApp name _ _ _ _ =>
        match map.get? name with
        | some body => body
        | none => expr.rebuild (expr.children.map (inlineExpr map))
      | .unfolding _ _ base _ _ _ =>
        if isConstant (inlineExpr map base) then inlineExpr map base
        else expr.rebuild (expr.children.map (inlineExpr map))
      | expr => expr.rebuild (expr.children.map (inlineExpr map)) := by
  unfold inlineExpr
  rw [Expr.para_eq]
  split
  · rfl
  · simp only [Expr.children, List.map_append, List.map_cons, List.map_nil, List.getLastD_concat]
  · rfl

/-- What is reduced, and what happens to the rest. -/
theorem inlineExpr_cases (hmap : ConstantMap map) (expr : Expr) :
    (reducesBy map expr = true ∧ isConstant (inlineExpr map expr) = true) ∨
      (reducesBy map expr = false ∧ isConstant (inlineExpr map expr) = false ∧
        (∀ name, callName? expr = some name → map.get? name = none) ∧
        inlineExpr map expr = expr.rebuild (expr.children.map (inlineExpr map))) := by
  induction expr using Expr.children_induction with
  | h expr ih _ =>
  rw [inlineExpr_eq]
  cases expr with
  | const => exact .inl ⟨rfl, rfl⟩
  | unaryOp kind arg pos =>
    rcases ih arg List.mem_cons_self with ⟨hreduces, hconst⟩ | ⟨hreduces, hconst, -⟩
    · exact .inl ⟨hreduces, hconst⟩
    · exact .inr ⟨hreduces, hconst, fun _ h => (nomatch h), rfl⟩
  | binOp kind left right pos =>
    have hleft := ih left List.mem_cons_self
    have hright := ih right (List.mem_cons_of_mem _ List.mem_cons_self)
    have hreduces_eq : reducesBy map (.binOp kind left right pos) =
        (reducesBy map left && reducesBy map right) := rfl
    have hconst_eq : isConstant ((Expr.binOp kind left right pos).rebuild
        ((Expr.binOp kind left right pos).children.map (inlineExpr map))) =
          (isConstant (inlineExpr map left) && isConstant (inlineExpr map right)) :=
      rfl
    simp only [hreduces_eq, hconst_eq]
    rcases hleft with ⟨hreduces, hconst⟩ | ⟨hreduces, hconst, -⟩
    · rcases hright with ⟨hreduces', hconst'⟩ | ⟨hreduces', hconst', -⟩
      · exact .inl ⟨by rw [hreduces, hreduces']; rfl, by rw [hconst, hconst']; rfl⟩
      · refine .inr ⟨by rw [hreduces, hreduces']; rfl, by rw [hconst, hconst']; rfl,
          fun _ h => (nomatch h), trivial⟩
    · exact .inr ⟨by rw [hreduces]; rfl, by rw [hconst]; rfl, fun _ h => (nomatch h), trivial⟩
  | funcApp name args formalArgs typ pos =>
    simp only [reducesBy]
    cases hget : map.get? name with
    | some body =>
      refine .inl ⟨(HashMap.contains_iff map name).mpr ⟨body, hget⟩, ?_⟩
      exact hmap name body hget
    | none =>
      refine .inr ⟨(HashMap.contains_eq_false_iff map name).mpr hget, rfl, ?_, rfl⟩
      intro name' h
      cases h
      exact hget
  | unfolding name args base perm index pos =>
    have hbase : base ∈ (Expr.unfolding name args base perm index pos).children :=
      List.mem_append_right _ List.mem_cons_self
    rcases ih base hbase with ⟨hreduces, hconst⟩ | ⟨hreduces, hconst, -⟩
    · refine .inl ⟨hreduces, ?_⟩
      simp only [hconst, if_true]
    · refine .inr ⟨hreduces, ?_, fun _ h => (nomatch h), ?_⟩
      · simp only [hconst]
        rfl
      · simp only [hconst]
        rfl
  | _ => exact .inr ⟨rfl, rfl, fun _ h => (nomatch h), rfl⟩

theorem isConstant_inlineExpr (hmap : ConstantMap map) (expr : Expr) :
    isConstant (inlineExpr map expr) = reducesBy map expr := by
  rcases inlineExpr_cases hmap expr with ⟨hreduces, hconst⟩ | ⟨hreduces, hconst, -⟩
  · rw [hreduces, hconst]
  · rw [hreduces, hconst]

/-- Constants stay. -/
theorem reducesBy_of_isConstant {expr : Expr} (h : isConstant expr = true) :
    reducesBy map expr = true := by
  fun_induction isConstant expr with
  | case1 => rfl
  | case2 _ arg _ ih => exact ih h
  | case3 _ left right _ ihleft ihright =>
    rw [Bool.and_eq_true] at h
    rw [reducesBy, ihleft h.1, ihright h.2]
    rfl
  | case4 => cases h

/-- More functions reduce more expressions. -/
theorem reducesBy_mono (hle : ∀ name, map.contains name = true → map'.contains name = true)
    {expr : Expr} (h : reducesBy map expr = true) : reducesBy map' expr = true := by
  fun_induction reducesBy map expr with
  | case1 => rfl
  | case2 _ arg _ ih => exact ih h
  | case3 _ left right _ ihleft ihright =>
    rw [Bool.and_eq_true] at h
    rw [reducesBy, ihleft h.1, ihright h.2]
    rfl
  | case4 name => exact hle name h
  | case5 _ _ base _ _ _ ih => exact ih h
  | case6 => cases h

theorem reducesBy_rebuild {expr : Expr} {f : Expr → Expr}
    (h : ∀ child ∈ expr.children, reducesBy map (f child) = reducesBy map child) :
    reducesBy map (expr.rebuild (expr.children.map f)) = reducesBy map expr := by
  cases expr with
  | unaryOp kind arg pos => exact h arg List.mem_cons_self
  | binOp kind left right pos =>
    have hleft := h left List.mem_cons_self
    have hright := h right (List.mem_cons_of_mem _ List.mem_cons_self)
    change (reducesBy map (f left) && reducesBy map (f right)) = _
    rw [hleft, hright]
    rfl
  | unfolding name args base perm index pos =>
    simp only [Expr.children, Expr.rebuild, List.map_append, List.map_cons,
      List.map_nil, List.getLastD_concat, reducesBy]
    exact h base (List.mem_append_right _ List.mem_cons_self)
  | _ => rfl

/-- The shape of an expression, as far as the pass looks at it. -/
def SameShape (expr expr' : Expr) : Prop :=
  isConstant expr = isConstant expr' ∧ ∀ name, name ∈ callNames expr ↔ name ∈ callNames expr'

theorem SameShape.trans {first second third : Expr} (h : SameShape first second)
    (h' : SameShape second third) : SameShape first third :=
  ⟨h.1.trans h'.1, fun name => (h.2 name).trans (h'.2 name)⟩

theorem SameShape.of_isConstant {expr expr' : Expr} (h : isConstant expr = true)
    (h' : isConstant expr' = true) : SameShape expr expr' :=
  ⟨h.trans h'.symm, fun _ =>
    ⟨fun hname => absurd hname (callNames_of_isConstant h),
      fun hname => absurd hname (callNames_of_isConstant h')⟩⟩

/-- The functions of the one map are among those of the other. -/
def MapLe (map map' : PureFunctionMap) : Prop :=
  ∀ name, map.contains name = true → map'.contains name = true

/-- It does not matter that some functions have been inlined before. -/
theorem inlineExpr_inlineExpr (hmap : ConstantMap map) (hmap' : ConstantMap map')
    (hle : MapLe map map') (expr : Expr) :
    SameShape (inlineExpr map' (inlineExpr map expr)) (inlineExpr map' expr) := by
  induction expr using Expr.children_induction with
  | h expr ih _ =>
  rcases inlineExpr_cases hmap expr with ⟨hreduces, hconst⟩ | ⟨-, -, hcall, heq⟩
  · apply SameShape.of_isConstant
    · rw [isConstant_inlineExpr hmap']
      exact reducesBy_of_isConstant hconst
    · rw [isConstant_inlineExpr hmap']
      exact reducesBy_mono hle hreduces
  · have hlength : (expr.children.map (inlineExpr map)).length =
        expr.children.length := List.length_map _
    have hreduces : reducesBy map' (inlineExpr map expr) = reducesBy map' expr := by
      rw [heq]
      apply reducesBy_rebuild
      intro child hchild
      rw [← isConstant_inlineExpr hmap', ← isConstant_inlineExpr hmap']
      exact (ih child hchild).1
    rcases inlineExpr_cases hmap' expr with ⟨hreduces', hconst'⟩ |
      ⟨hreduces', hconst', -, heq'⟩
    · apply SameShape.of_isConstant _ hconst'
      rw [isConstant_inlineExpr hmap', hreduces, hreduces']
    · rcases inlineExpr_cases hmap' (inlineExpr map expr) with ⟨hreduces'', -⟩ |
        ⟨-, hconst'', -, heq''⟩
      · rw [hreduces, hreduces'] at hreduces''
        cases hreduces''
      · refine ⟨hconst''.trans hconst'.symm, fun name => ?_⟩
        rw [heq'', heq', mem_callNames_rebuild, mem_callNames_rebuild, heq,
          Expr.children_rebuild hlength, Expr.triggers_rebuild hlength, callName?_rebuild hlength]
        simp only [List.mem_map, exists_exists_and_eq_and]
        refine or_congr_right (or_congr_left ?_)
        constructor
        · rintro ⟨child, hchild, hname⟩
          exact ⟨child, hchild, ((ih child hchild).2 name).mp hname⟩
        · rintro ⟨child, hchild, hname⟩
          exact ⟨child, hchild, ((ih child hchild).2 name).mpr hname⟩

end Inlining

end Prusti.Optimizations

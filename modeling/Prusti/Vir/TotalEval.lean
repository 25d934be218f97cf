/-
The total meaning of expressions: every operation has a value on every operand, and
an unfolding does not change values.  Evaluation depends on the free variables only,
and it does not tell apart expressions that are equal up to positions and types.
-/
import Prusti.Vir.Free

namespace Prusti.Vir

open Prusti.Lib

namespace Expr

/-- The nodes whose parts are evaluated in another state. -/
def isModal : Expr → Bool
  | labelledOld _ _ _ | magicWand _ _ _ _ => true
  | _ => false

/-- The nodes that talk about the location of their part. -/
def isAccess : Expr → Bool
  | fieldAccessPredicate _ _ _ => true
  | _ => false

/-- The types of the variables that a quantifier binds. -/
def ownTypes : Expr → List Typ
  | forAll vars _ _ _ | exist vars _ _ _ => vars.map (·.typ)
  | _ => []

/-- The types of the variables that the quantifiers of an expression bind. -/
def quantTypes (expr : Expr) : List Typ :=
  expr.para fun node parts _ => node.ownTypes ++ parts.flatten

theorem quantTypes_eq (expr : Expr) :
    expr.quantTypes = expr.ownTypes ++ (expr.children.map quantTypes).flatten :=
  para_eq _ expr

theorem quantTypes_child {expr child : Expr} (h : child ∈ expr.children) :
    child.quantTypes ⊆ expr.quantTypes := by
  intro typ htyp
  rw [quantTypes_eq]
  exact List.mem_append_right _ (List.mem_flatten.mpr ⟨_, List.mem_map_of_mem h, htyp⟩)

theorem ownTypes_rebuild {expr : Expr} {parts : List Expr}
    (h : parts.length = expr.children.length) :
    (expr.rebuild parts).ownTypes = expr.ownTypes :=
  apply_rebuild (by intro expr; cases expr <;> rfl) h

theorem quantTypes_rebuild {expr : Expr} {parts : List Expr}
    (h : List.Forall₂ (fun child part => part.quantTypes ⊆ child.quantTypes)
      expr.children parts) : (expr.rebuild parts).quantTypes ⊆ expr.quantTypes := by
  have hlength := h.length_eq.symm
  intro typ htyp
  rw [quantTypes_eq, ownTypes_rebuild hlength, children_rebuild hlength, List.mem_append] at htyp
  rcases htyp with hown | hpart
  · rw [quantTypes_eq]
    exact List.mem_append_left _ hown
  · obtain ⟨_, hmem, htyp⟩ := List.mem_flatten.mp hpart
    obtain ⟨part, hpart, rfl⟩ := List.mem_map.mp hmem
    obtain ⟨child, hchild, hsubset⟩ := exists_of_forall₂_mem_right h hpart
    exact quantTypes_child hchild (hsubset htyp)

theorem forall₂_of_eqList {left right : List Expr} (h : eqList left right = true) :
    List.Forall₂ (fun expr expr' => (expr == expr') = true) left right := by
  induction left generalizing right with
  | nil =>
    cases right with
    | nil => exact .nil
    | cons => exact absurd h Bool.false_ne_true
  | cons expr rest ih =>
    cases right with
    | nil => exact absurd h Bool.false_ne_true
    | cons expr' rest' =>
      rw [eqList, Bool.and_eq_true] at h
      exact .cons h.1 (ih h.2)

/-- The sub-expressions of equal expressions are equal. -/
theorem forall₂_children_of_beq {left right : Expr} (h : (left == right) = true) :
    List.Forall₂ (fun expr expr' => (expr == expr') = true) left.children right.children := by
  change eq left right = true at h
  unfold eq at h
  split at h
  all_goals try simp only [Bool.and_eq_true] at h
  case h_13 | h_19 | h_20 => exact forall₂_of_eqList h.2
  case h_14 =>
      exact List.rel_append (forall₂_of_eqList h.1.1.1.2) (.cons h.1.1.2 .nil)
  case h_22 => cases h
  case h_1 | h_6 => exact .nil
  case h_2 | h_3 | h_4 | h_9 => exact .cons h.1 .nil
  case h_5 | h_10 => exact .cons h.2 .nil
  case h_8 => exact .cons h.1.2 .nil
  case h_21 => exact .cons h .nil
  case h_7 => exact .cons h.1.1 (.cons h.1.2 .nil)
  case h_11 | h_12 | h_18 => exact .cons h.1.2 (.cons h.2 .nil)
  case h_15 => exact .cons h.1.1 (.cons h.1.2 (.cons h.2 .nil))
  case h_16 | h_17 => exact .cons h.2 .nil

/-- The equality of types tells these types apart. -/
def Distinct (types : List Typ) : Prop :=
  ∀ typ ∈ types, ∀ typ' ∈ types, (typ == typ') = true → typ = typ'

theorem vars_eq_of_beq {types : List Typ} (htypes : Distinct types)
    {vars vars' : List LocalVar} (h : (vars == vars') = true)
    (hmem : vars.map (·.typ) ⊆ types) (hmem' : vars'.map (·.typ) ⊆ types) :
    vars = vars' := by
  induction vars generalizing vars' with
  | nil =>
    cases vars' with
    | nil => rfl
    | cons => cases h
  | cons var vars ih =>
    cases vars' with
    | nil => cases h
    | cons var' vars' =>
      rw [list_beq_cons_iff, LocalVar.beq_iff] at h
      rw [List.map_cons, List.cons_subset] at hmem hmem'
      obtain ⟨⟨hname, htyp⟩, hrest⟩ := h
      have hsame : var = var' := by
        cases var
        cases var'
        cases hname
        cases htypes _ hmem.1 _ hmem'.1 htyp
        rfl
      rw [hsame, ih hrest hmem.2 hmem'.2]

end Expr

/-- An interpretation of the operations, all of them total.  Functions and fields are
known by their names.  A magic wand talks about other states, and an access to a field
talks about the receiver and not about the value. -/
structure TotalModel where
  V : Type
  State : Type
  carrier : Typ → Set V
  ofProp : Prop → V
  holds : V → Prop
  const : Const → V
  field : State → String → V → V
  variant : State → String → V → V
  addrOf : State → V → V
  snap : State → V → V
  old : String → State → State
  unary : UnaryOpKind → V → V
  binary : BinOpKind → V → V → V
  container : ContainerOpKind → V → V → V
  seq : List V → V
  cond : V → V → V → V
  func : String → State → List V → V
  domainFunc : String → String → List V → V
  inhaleExhale : V → V → V
  wand : Option Borrow → State → (State → V) → (State → V) → V
  pred : String → PermAmount → State → V → V
  accField : PermAmount → State → String → V → V
  accOther : PermAmount → State → V → V

namespace TotalModel

variable (M : TotalModel)

abbrev Env := String → M.V

variable {M} in
/-- The values of the variables inside of a binder. -/
def Env.bind (env : M.Env) : List LocalVar → List M.V → M.Env
  | var :: vars, value :: values => fun name =>
    if name = var.name then value else Env.bind env vars values name
  | _, _ => env

/-- The values a quantifier ranges over. -/
def Tuples (vars : List LocalVar) : Set (List M.V) :=
  { values | List.Forall₂ (fun var value => value ∈ M.carrier var.typ) vars values }

/-- What an expression means: its value, and its location if it is a field. -/
structure Meaning where
  value : M.State → M.Env → M.V
  loc : Option (String × (M.State → M.Env → M.V))

variable {M} in
def Meaning.values (parts : List M.Meaning) (state : M.State) (env : M.Env) : List M.V :=
  parts.map fun part => part.value state env

section Parts

variable {α : Type} (default : α) (parts : List M.Meaning)

def one (f : M.Meaning → α) : α :=
  match parts with
  | [part] => f part
  | _ => default

def two (f : M.Meaning → M.Meaning → α) : α :=
  match parts with
  | [left, right] => f left right
  | _ => default

def three (f : M.Meaning → M.Meaning → M.Meaning → α) : α :=
  match parts with
  | [first, second, third] => f first second third
  | _ => default

def last (f : M.Meaning → α) : α :=
  match parts.getLast? with
  | some part => f part
  | none => default

end Parts

/-- The value of a node, by the meanings of its parts. -/
def valueNode (node : Expr) (parts : List M.Meaning) (state : M.State) (env : M.Env) : M.V :=
  let undefined := M.ofProp False
  match node with
  | .localVar var _ => env var.name
  | .const value _ => M.const value
  | .variant _ fld _ => M.one undefined parts fun base =>
    M.variant state fld.name (base.value state env)
  | .field _ fld _ => M.one undefined parts fun base =>
    M.field state fld.name (base.value state env)
  | .addrOf _ _ _ => M.one undefined parts fun base =>
    M.addrOf state (base.value state env)
  | .snapApp _ _ => M.one undefined parts fun base =>
    M.snap state (base.value state env)
  | .labelledOld label _ _ => M.one undefined parts fun base =>
    base.value (M.old label state) env
  | .magicWand _ _ borrow _ => M.two undefined parts fun lhs rhs =>
    M.wand borrow state (fun other => lhs.value other env) fun other =>
      rhs.value other env
  | .predicateAccessPredicate name _ perm _ => M.one undefined parts fun arg =>
    M.pred name perm state (arg.value state env)
  | .fieldAccessPredicate _ perm _ => M.one undefined parts fun base =>
    match base.loc with
    | some (name, receiver) => M.accField perm state name (receiver state env)
    | none => M.accOther perm state (base.value state env)
  | .unaryOp op _ _ => M.one undefined parts fun arg =>
    M.unary op (arg.value state env)
  | .binOp op _ _ _ => M.two undefined parts fun left right =>
    M.binary op (left.value state env) (right.value state env)
  | .containerOp op _ _ _ => M.two undefined parts fun left right =>
    M.container op (left.value state env) (right.value state env)
  | .seq _ _ _ => M.seq (Meaning.values parts state env)
  | .unfolding _ _ _ _ _ _ => M.last undefined parts fun base => base.value state env
  | .cond _ _ _ _ => M.three undefined parts fun guard thenExpr elseExpr =>
    M.cond (guard.value state env) (thenExpr.value state env) (elseExpr.value state env)
  | .forAll vars _ _ _ => M.one undefined parts fun body =>
    M.ofProp (∀ values ∈ M.Tuples vars, M.holds (body.value state (env.bind vars values)))
  | .exist vars _ _ _ => M.one undefined parts fun body =>
    M.ofProp (∃ values ∈ M.Tuples vars, M.holds (body.value state (env.bind vars values)))
  | .letExpr var _ _ _ => M.two undefined parts fun expr body =>
    body.value state (env.bind [var] [expr.value state env])
  | .funcApp name _ _ _ _ => M.func name state (Meaning.values parts state env)
  | .domainFuncApp func _ _ =>
    M.domainFunc func.domainName func.name (Meaning.values parts state env)
  | .inhaleExhale _ _ _ => M.two undefined parts fun inhaleExpr exhaleExpr =>
    M.inhaleExhale (inhaleExpr.value state env) (exhaleExpr.value state env)
  | .downcast _ _ _ => M.two undefined parts fun base _ => base.value state env

/-- The location of a node. -/
def locNode (node : Expr) (parts : List M.Meaning) : Option (String × (M.State → M.Env → M.V)) :=
  match node with
  | .field _ fld _ => M.one none parts fun base => some (fld.name, base.value)
  | .unfolding _ _ _ _ _ _ => M.last none parts fun base => base.loc
  | _ => none

def meaningNode (node : Expr) (parts : List M.Meaning) : M.Meaning :=
  ⟨M.valueNode node parts, M.locNode node parts⟩

def meaning (expr : Expr) : M.Meaning := expr.para fun node parts _ => M.meaningNode node parts

/-- The value of an expression. -/
def eval (expr : Expr) (state : M.State) (env : M.Env) : M.V := (M.meaning expr).value state env

theorem meaning_eq (expr : Expr) :
    M.meaning expr = M.meaningNode expr (expr.children.map M.meaning) :=
  Expr.para_eq _ expr

theorem eval_letExpr (var : LocalVar) (expr body : Expr) (pos : Position)
    (state : M.State) (env : M.Env) :
    M.eval (.letExpr var expr body pos) state env =
      M.eval body state (env.bind [var] [M.eval expr state env]) := by
  rw [eval, meaning_eq]
  rfl

theorem eval_forAll (vars : List LocalVar) (triggers : List (List Expr)) (body : Expr)
    (pos : Position) (state : M.State) (env : M.Env) :
    M.eval (.forAll vars triggers body pos) state env = M.ofProp
      (∀ values ∈ M.Tuples vars, M.holds (M.eval body state (env.bind vars values))) := by
  rw [eval, meaning_eq]
  rfl

theorem eval_exist (vars : List LocalVar) (triggers : List (List Expr)) (body : Expr)
    (pos : Position) (state : M.State) (env : M.Env) :
    M.eval (.exist vars triggers body pos) state env = M.ofProp
      (∃ values ∈ M.Tuples vars, M.holds (M.eval body state (env.bind vars values))) := by
  rw [eval, meaning_eq]
  rfl

/-- An unfolding does not matter. -/
theorem meaning_unfolding (name : String) (args : List Expr) (base : Expr)
    (perm : PermAmount) (index : Option EnumVariantIndex) (pos : Position) :
    M.meaning (.unfolding name args base perm index pos) = M.meaning base := by
  rw [meaning_eq]
  have hlast : ((args ++ [base]).map M.meaning).getLast? = some (M.meaning base) := by
    simp
  unfold meaningNode valueNode locNode
  simp only [Expr.children, last, hlast]

/-- The meaning of a node depends on its parts by their meanings. -/
theorem meaningNode_rebuild {node : Expr} {parts : List Expr}
    (h : parts.length = node.children.length) (meanings : List M.Meaning) :
    M.meaningNode (node.rebuild parts) meanings = M.meaningNode node meanings :=
  Expr.apply_rebuild (f := fun node => M.meaningNode node meanings)
    (by intro node; cases node <;> rfl) h

section Congr

variable {M} {α : Type} {default : α} {R : M.Meaning → M.Meaning → Prop}
  {parts parts' : List M.Meaning}

theorem one_congr (h : List.Forall₂ R parts parts') {f f' : M.Meaning → α}
    (hf : ∀ part part', R part part' → f part = f' part') :
    M.one default parts f = M.one default parts' f' := by
  rcases h with _ | ⟨hfirst, _ | ⟨_, _⟩⟩
  · rfl
  · exact hf _ _ hfirst
  · rfl

theorem two_congr (h : List.Forall₂ R parts parts') {f f' : M.Meaning → M.Meaning → α}
    (hf : ∀ left right left' right', R left left' → R right right' →
      f left right = f' left' right') :
    M.two default parts f = M.two default parts' f' := by
  rcases h with _ | ⟨hleft, _ | ⟨hright, _ | ⟨_, _⟩⟩⟩
  · rfl
  · rfl
  · exact hf _ _ _ _ hleft hright
  · rfl

theorem three_congr (h : List.Forall₂ R parts parts') {f f' : M.Meaning → M.Meaning → M.Meaning → α}
    (hf : ∀ first second third first' second' third', R first first' →
      R second second' → R third third' → f first second third = f' first' second' third') :
    M.three default parts f = M.three default parts' f' := by
  rcases h with _ | ⟨hfirst, _ | ⟨hsecond, _ | ⟨hthird, _ | ⟨_, _⟩⟩⟩⟩
  · rfl
  · rfl
  · rfl
  · exact hf _ _ _ _ _ _ hfirst hsecond hthird
  · rfl

theorem last_congr (h : List.Forall₂ R parts parts') {f f' : M.Meaning → α}
    (hf : ∀ part part', R part part' → f part = f' part') :
    M.last default parts f = M.last default parts' f' := by
  unfold last
  cases hlast : parts.getLast? with
  | none =>
    have hnil : parts' = [] := by
      rw [List.getLast?_eq_none_iff] at hlast
      rw [hlast] at h
      exact List.forall₂_nil_left_iff.mp h
    rw [hnil]
    rfl
  | some part =>
    obtain ⟨part', hlast', hrel⟩ := getLast?_of_forall₂ h hlast
    rw [hlast']
    exact hf part part' hrel

theorem values_congr {state state' : M.State} {env env' : M.Env}
    (h : List.Forall₂ (fun part part' => part.value state env = part'.value state' env')
      parts parts') : Meaning.values parts state env = Meaning.values parts' state' env' := by
  induction h with
  | nil => rfl
  | cons hfirst _ ih => exact congrArg₂ List.cons hfirst ih

end Congr

section Env

variable {M}

variable {env env' : M.Env} {states : Set M.State}

/-- Inside of a binder only the other variables matter. -/
theorem Env.bind_congr {vars : List LocalVar} {values : List M.V}
    (hlength : vars.length = values.length) {name : String}
    (h : name ∉ vars.map (·.name) → env name = env' name) :
    env.bind vars values name = env'.bind vars values name := by
  induction vars generalizing values with
  | nil => exact h (by simp)
  | cons var vars ih =>
    cases values with
    | nil => cases hlength
    | cons value values =>
      simp only [Env.bind]
      by_cases heq : name = var.name
      · rw [if_pos heq, if_pos heq]
      · rw [if_neg heq, if_neg heq]
        apply ih (Nat.succ.inj hlength)
        intro hmem
        apply h
        rw [List.map_cons, List.mem_cons]
        rintro (hname | hname)
        · exact heq hname
        · exact hmem hname

theorem Env.bind_of_not_mem {vars : List LocalVar} {values : List M.V} {name : String}
    (h : name ∉ vars.map (·.name)) :
    env.bind vars values name = env name := by
  induction vars generalizing values with
  | nil => rfl
  | cons var vars ih =>
    rw [List.map_cons, List.mem_cons, not_or] at h
    cases values with
    | nil => rfl
    | cons value values =>
      simp only [Env.bind, if_neg h.1]
      exact ih h.2

/-- Two environments give the same meaning in these states. -/
structure Meaning.Agrees (states : Set M.State) (env env' : M.Env)
    (part part' : M.Meaning) : Prop where
  value : ∀ state ∈ states, part.value state env = part'.value state env'
  loc : Option.Rel (fun location location' => location.1 = location'.1 ∧
    ∀ state ∈ states, location.2 state env = location'.2 state env') part.loc part'.loc

theorem Meaning.Agrees.mono {states' : Set M.State} {part part' : M.Meaning}
    (h : Meaning.Agrees states env env' part part') (hsubset : states' ⊆ states) :
    Meaning.Agrees states' env env' part part' := by
  refine ⟨fun state hstate => h.value state (hsubset hstate), ?_⟩
  have hloc := h.loc
  generalize part.loc = loc at hloc
  generalize part'.loc = loc' at hloc
  cases hloc with
  | none => exact .none
  | some hsame => exact .some ⟨hsame.1, fun state hstate => hsame.2 state (hsubset hstate)⟩

/-- The access to a field depends on its location. -/
theorem accessValue_congr {part part' : M.Meaning} (h : Meaning.Agrees states env env' part part')
    (perm : PermAmount) {state : M.State} (hstate : state ∈ states) :
    (match part.loc with
      | some (name, receiver) => M.accField perm state name (receiver state env)
      | none => M.accOther perm state (part.value state env)) =
    match part'.loc with
      | some (name, receiver) => M.accField perm state name (receiver state env')
      | none => M.accOther perm state (part'.value state env') := by
  have hloc := h.loc
  generalize part.loc = loc at hloc
  generalize part'.loc = loc' at hloc
  cases hloc with
  | none => simp only [h.value state hstate]
  | some hsame => simp only [hsame.1, hsame.2 state hstate]

/-- The value of a node that binds nothing depends on the values of its parts, unless
the node is an access. -/
theorem valueNode_congr {node : Expr} (hplain : node.isBinder = false)
    (hmodal : node.isModal = true → states = Set.univ) (haccess : node.isAccess = false)
    (hvar : ∀ var pos, node = .localVar var pos → env var.name = env' var.name)
    {parts parts' : List M.Meaning}
    (h : List.Forall₂ (fun part part' => ∀ state ∈ states,
      part.value state env = part'.value state env') parts parts') {state : M.State}
    (hstate : state ∈ states) :
    M.valueNode node parts state env = M.valueNode node parts' state env' := by
  have hvalues : Meaning.values parts state env = Meaning.values parts' state env' :=
    values_congr (h.imp fun _ _ hpart => hpart state hstate)
  cases node with
  | localVar var pos => exact hvar var pos rfl
  | const => rfl
  | variant | field | addrOf | snapApp | predicateAccessPredicate | unaryOp =>
    exact one_congr h fun part part' hpart => by rw [hpart state hstate]
  | labelledOld =>
    cases hmodal rfl
    exact one_congr h fun part part' hpart => hpart _ (Set.mem_univ _)
  | magicWand =>
    cases hmodal rfl
    exact two_congr h fun left right left' right' hleft hright => by
      simp only [hleft _ (Set.mem_univ _), hright _ (Set.mem_univ _)]
  | binOp | containerOp | inhaleExhale | downcast =>
    exact two_congr h fun left right left' right' hleft hright => by
      simp only [hleft state hstate, hright state hstate]
  | seq | funcApp | domainFuncApp => exact congrArg _ hvalues
  | unfolding => exact last_congr h fun part part' hpart => hpart state hstate
  | cond =>
    exact three_congr h fun first second third first' second' third' h1 h2 h3 => by
      rw [h1 state hstate, h2 state hstate, h3 state hstate]
  | letExpr | forAll | exist => cases hplain
  | fieldAccessPredicate => cases haccess

/-- A node that binds nothing means the same if its parts do. -/
theorem agrees_meaningNode {node : Expr} (hplain : node.isBinder = false)
    (hmodal : node.isModal = true → states = Set.univ)
    (hvar : ∀ var pos, node = .localVar var pos → env var.name = env' var.name)
    {parts parts' : List M.Meaning} (h : List.Forall₂
    (Meaning.Agrees states env env') parts parts') :
    Meaning.Agrees states env env' (M.meaningNode node parts) (M.meaningNode node parts') := by
  have hvalues : List.Forall₂ (fun part part' => ∀ state ∈ states,
      part.value state env = part'.value state env') parts parts' :=
    h.imp fun _ _ hpart => hpart.value
  constructor
  · intro state hstate
    cases haccess : node.isAccess with
    | false => exact valueNode_congr hplain hmodal haccess hvar hvalues hstate
    | true =>
      cases node with
      | fieldAccessPredicate =>
        exact one_congr h fun part part' hpart => accessValue_congr hpart _ hstate
      | _ => cases haccess
  · cases node with
    | field =>
      rcases h with _ | ⟨hfirst, _ | ⟨_, _⟩⟩
      · exact .none
      · exact .some ⟨rfl, hfirst.value⟩
      · exact .none
    | unfolding =>
      change Option.Rel _ (M.last none parts fun base => base.loc)
        (M.last none parts' fun base => base.loc)
      unfold last
      cases hlast : parts.getLast? with
      | none =>
        rw [List.getLast?_eq_none_iff] at hlast
        rw [hlast] at h
        rw [List.forall₂_nil_left_iff.mp h]
        exact .none
      | some part =>
        obtain ⟨part', hlast', hpart⟩ := getLast?_of_forall₂ h hlast
        rw [hlast']
        exact hpart.loc
    | _ => exact .none

/-- An expression depends on its free variables only. -/
theorem agrees_meaning (expr : Expr) :
    ∀ env env' : M.Env, (∀ name ∈ expr.free, env name = env' name) →
      Meaning.Agrees Set.univ env env' (M.meaning expr) (M.meaning expr) := by
  induction expr using Expr.children_induction with
  | h expr ih _ =>
  intro env env' h
  have hchild : ∀ bound child, (bound, child) ∈ expr.binders.zip expr.children →
      ∀ env₁ env₁' : M.Env, (∀ name, (name ∉ bound → env name = env' name) →
        env₁ name = env₁' name) →
      Meaning.Agrees Set.univ env₁ env₁' (M.meaning child) (M.meaning child) := by
    intro bound child hmem env₁ env₁' hbound
    apply ih child (List.of_mem_zip hmem).2
    intro name hname
    apply hbound
    intro hnot
    exact h name (Expr.mem_free_of_child hmem hname hnot)
  rw [meaning_eq]
  cases hbinder : expr.isBinder with
  | false =>
    apply agrees_meaningNode hbinder fun _ => rfl
    · rintro var pos rfl
      exact h var.name (by simp [Expr.free_eq, Expr.freeNode])
    · rw [List.forall₂_map_left_iff, List.forall₂_map_right_iff, List.forall₂_same]
      intro child hmem
      refine hchild [] child (Expr.mem_binders_zip hbinder hmem) env env' ?_
      intro name hname
      exact hname (by simp)
  | true =>
    cases expr with
    | letExpr var expr body pos =>
      have hexpr := hchild [] expr (by simp [Expr.binders, Expr.children]) env env'
        fun name hname => hname (by simp)
      refine ⟨fun state _ => ?_, .none⟩
      have hbody := hchild [var.name] body (by simp [Expr.binders, Expr.children])
        (env.bind [var] [M.eval expr state env])
        (env'.bind [var] [M.eval expr state env])
        fun name hname => Env.bind_congr rfl hname
      change (M.meaning body).value state (env.bind [var] [M.eval expr state env]) =
        (M.meaning body).value state (env'.bind [var] [M.eval expr state env'])
      rw [hbody.value state (Set.mem_univ _), eval, eval, hexpr.value state (Set.mem_univ _)]
    | forAll vars triggers body pos =>
      refine ⟨fun state _ => ?_, .none⟩
      change M.ofProp _ = M.ofProp _
      congr 1
      refine propext (forall₂_congr fun values hvalues => ?_)
      have hbody := hchild (vars.map (·.name)) body
        (by simp [Expr.binders, Expr.children]) (env.bind vars values)
        (env'.bind vars values) fun name hname =>
          Env.bind_congr (List.Forall₂.length_eq hvalues) hname
      rw [hbody.value state (Set.mem_univ _)]
    | exist vars triggers body pos =>
      refine ⟨fun state _ => ?_, .none⟩
      change M.ofProp _ = M.ofProp _
      congr 1
      refine propext (exists_congr fun values => and_congr_right fun hvalues => ?_)
      have hbody := hchild (vars.map (·.name)) body
        (by simp [Expr.binders, Expr.children]) (env.bind vars values)
        (env'.bind vars values) fun name hname =>
          Env.bind_congr (List.Forall₂.length_eq hvalues) hname
      rw [hbody.value state (Set.mem_univ _)]
    | _ => cases hbinder

theorem eval_congr {expr : Expr} (h : ∀ name ∈ expr.free, env name = env' name) (state : M.State) :
    M.eval expr state env = M.eval expr state env' :=
  (agrees_meaning expr env env' h).value state (Set.mem_univ _)

end Env

section Equality

variable {M} {types : List Typ}

/-- Equal nodes put their parts together in the same way. -/
theorem meaningNode_of_beq (htypes : Expr.Distinct types) {left right : Expr}
    (h : (left == right) = true) (hleft : left.ownTypes ⊆ types)
    (hright : right.ownTypes ⊆ types) (parts : List M.Meaning) :
    M.meaningNode left parts = M.meaningNode right parts := by
  change Expr.eq left right = true at h
  unfold Expr.eq at h
  split at h
  all_goals try simp only [Bool.and_eq_true, beq_iff_eq] at h
  case h_16 | h_17 =>
      rw [Expr.vars_eq_of_beq htypes h.1.1 hleft hright]
      rfl
  case h_1 =>
      rw [LocalVar.beq_iff] at h
      exact congrArg₂ Meaning.mk (funext₂ fun _ env => congrArg env h.1) rfl
  case h_2 | h_3 =>
      rw [Field.beq_iff] at h
      unfold meaningNode valueNode locNode
      simp only [h.2.1]
  case h_18 =>
      rw [LocalVar.beq_iff] at h
      unfold meaningNode valueNode locNode
      simp only [Env.bind, h.1.1.1]
  case h_20 =>
      rw [DomainFunc.beq_iff] at h
      unfold meaningNode valueNode locNode
      simp only [h.1.1, h.1.2.2.2.2]
  case h_22 => cases h
  case h_4 | h_13 | h_15 | h_21 => rfl
  case h_5 | h_10 | h_19 => rw [h.1]; rfl
  case h_6 => rw [h]; rfl
  case h_7 | h_9 => rw [h.2]; rfl
  case h_11 | h_12 => rw [h.1.1]; rfl
  case h_8 => rw [h.1.1, h.2]; rfl
  case h_14 => rfl


/-- Expressions that are equal up to positions and types mean the same. -/
theorem meaning_of_beq (htypes : Expr.Distinct types) (left : Expr) :
    ∀ right : Expr, (left == right) = true → left.quantTypes ⊆ types →
      right.quantTypes ⊆ types → M.meaning left = M.meaning right := by
  induction left using Expr.children_induction with
  | h left ih _ =>
  intro right h hleft hright
  have hchildren : left.children.map M.meaning = right.children.map M.meaning := by
    rw [← List.forall₂_eq_eq_eq, List.forall₂_map_left_iff, List.forall₂_map_right_iff]
    refine forall₂_imp_mem (Expr.forall₂_children_of_beq h) ?_
    intro child hchild child' hchild' hbeq
    exact ih child hchild child' hbeq (List.Subset.trans (Expr.quantTypes_child hchild) hleft)
      (List.Subset.trans (Expr.quantTypes_child hchild') hright)
  have hown : left.ownTypes ⊆ types ∧ right.ownTypes ⊆ types := by
    rw [Expr.quantTypes_eq, List.append_subset] at hleft hright
    exact ⟨hleft.1, hright.1⟩
  rw [meaning_eq, meaning_eq, hchildren, meaningNode_of_beq htypes h hown.1 hown.2]

end Equality

end TotalModel

end Prusti.Vir

/-
When an expression may be moved out of the quantifiers around it.  A node that is
pulled out of a quantifier leaves the scope of all binders between the two, and it is
then treated like any other expression of the next quantifier around it.
-/
import Prusti.Optimizations.PulledExprs

namespace Prusti.Optimizations.QuantifierFixer

open Prusti.Lib Prusti.Vir

/-- The expression under the unfoldings around it. -/
def stripped : Expr → Expr
  | .unfolding _ _ base _ _ _ => stripped base
  | expr => expr

/-- Is the expression the field of a variable, up to unfoldings? -/
def isLocation (expr : Expr) : Bool :=
  match stripped expr with
  | .field base _ _ => (stripped base).isLocal
  | _ => false

/-- The nodes that are pulled out of a quantifier once the unfoldings are gone. -/
def mayPull (vars : List LocalVar) : Expr → Bool
  | .field base _ _ => (stripped base).isLocal
  | expr => isPulled vars expr

/-- A quantifier around an expression: its variables, and the names that are bound
between the quantifier and the expression, by the quantifier and by others. -/
structure Level where
  vars : List LocalVar
  crossed : List String

namespace Level

def ofVars (vars : List LocalVar) : Level := ⟨vars, vars.map (·.name)⟩

/-- The level inside of a binder of the names. -/
def cross (names : List String) (level : Level) : Level :=
  { level with crossed := names ++ level.crossed }

/-- No free variable of the expression is bound in between. -/
def allows (level : Level) (expr : Expr) : Bool :=
  expr.free.all fun name => !level.crossed.contains name

end Level

/-- What the passes do with a node that is not pulled out. -/
inductive Treatment where
  | kept
  | quantifier (vars : List LocalVar)
  | wand
  | access
  | entered

def treatment : Expr → Treatment
  | .labelledOld _ _ _ | .field _ _ _ => .kept
  | .forAll vars _ _ _ => .quantifier vars
  | .magicWand _ _ _ _ => .wand
  | .fieldAccessPredicate _ _ _ => .access
  | _ => .entered

/-- Nothing is pulled out of the expression, and it has no quantifier of its own. -/
def isQuiet (vars : List LocalVar) (expr : Expr) : Bool :=
  expr.para fun node parts _ => !mayPull vars node &&
    match treatment node with
    | .kept => true
    | .quantifier _ => false
    | _ => parts.all id

/-- Is a node among those that may be pulled out: none of them, or those that quantify
over some of the types? -/
def isAmong : Option (List Typ) → Expr → Bool
  | none, _ => false
  | some types, expr => expr.quantTypes.all fun typ => types.any fun other => decide (other = typ)

/-- Every node that is pulled out of the quantifiers around may leave them.  If the
quantifiers inside of the expression are done already, they are not looked at. -/
def isMovableNode (types : Option (List Typ)) (done : Bool) (node : Expr)
    (parts : List (List Level → Bool)) : List Level → Bool
  | [] =>
    match treatment node with
    | .wand => true
    | .quantifier vars => done || parts.all fun part => part [Level.ofVars vars]
    | _ => done || parts.all fun part => part []
  | level :: levels =>
    if mayPull level.vars node then
      isAmong types node && level.allows node && isMovableNode types done node parts levels
    else
      match treatment node with
      | .kept => done || parts.all fun part => part []
      | .quantifier vars =>
        done || parts.all fun part => part (Level.ofVars vars :: level :: levels)
      -- What is pulled out of a wand is evaluated in another state.
      | .wand => node.children.all (isQuiet level.vars)
      -- An access to a variable is no access to the field any more.
      | .access => node.children.all (!isLocation ·) && parts.all fun part => part (level :: levels)
      | .entered => (node.binders.zip parts).all fun part =>
        part.2 (level.cross part.1 :: levels)

def isMovable (types : Option (List Typ)) (done : Bool) (expr : Expr) : List Level → Bool :=
  expr.para fun node parts _ => isMovableNode types done node parts

section Movable

variable {types : Option (List Typ)} {done : Bool}

variable {expr : Expr} {level : Level}

theorem isMovable_eq (expr : Expr) (levels : List Level) :
    isMovable types done expr levels =
      isMovableNode types done expr (expr.children.map (isMovable types done)) levels :=
  congrFun (Expr.para_eq _ expr) levels

theorem isAmong_some {list : List Typ} :
    isAmong (some list) expr = true ↔ expr.quantTypes ⊆ list := by
  simp [isAmong, List.subset_def]

/-- An expression may be pulled out if one with more quantifiers may. -/
theorem isAmong_of_subset {expr' : Expr} (hsubset : expr'.quantTypes ⊆ expr.quantTypes)
    (h : isAmong types expr = true) : isAmong types expr' = true := by
  cases types with
  | none => cases h
  | some types => exact isAmong_some.mpr (List.Subset.trans hsubset (isAmong_some.mp h))

theorem isQuiet_eq (vars : List LocalVar) (expr : Expr) :
    isQuiet vars expr = (!mayPull vars expr &&
      match treatment expr with
      | .kept => true
      | .quantifier _ => false
      | _ => (expr.children.map (isQuiet vars)).all id) :=
  Expr.para_eq _ expr

theorem Level.allows_iff : level.allows expr = true ↔ ∀ name ∈ expr.free, name ∉ level.crossed := by
  simp [Level.allows]

theorem mayPull_of_isPulled {vars : List LocalVar} (h : isPulled vars expr = true) :
    mayPull vars expr = true := by
  cases expr with
  | field base =>
    cases base with
    | localVar => rfl
    | _ => cases h
  | _ => exact h

theorem mayPull_eq_isPulled {vars : List LocalVar} (h : isKept expr = false) :
    mayPull vars expr = isPulled vars expr := by
  cases expr with
  | field => cases h
  | _ => rfl

/-- The parts of a node that the replacer enters. -/
theorem isMovable_entered {levels : List Level} (hpulled : isPulled level.vars expr = false)
    (hkept : isKept expr = false) (h : isMovable types done expr (level :: levels) = true) :
    (∃ lhs rhs borrow pos, expr = .magicWand lhs rhs borrow pos ∧
        isQuiet level.vars lhs = true ∧ isQuiet level.vars rhs = true) ∨
      (∀ bound child, (bound, child) ∈ expr.binders.zip expr.children →
        isMovable types done child (level.cross bound :: levels) = true) ∧
        expr.isModal = false ∧
        ∀ base perm pos, expr = .fieldAccessPredicate base perm pos → isLocation base = false := by
  rw [isMovable_eq] at h
  unfold isMovableNode at h
  rw [if_neg (Bool.eq_false_iff.mp ((mayPull_eq_isPulled hkept).trans hpulled))] at h
  have hzip : ((expr.binders.zip (expr.children.map (isMovable types done))).all fun part =>
      part.2 (level.cross part.1 :: levels)) = true →
      ∀ bound child, (bound, child) ∈ expr.binders.zip expr.children →
        isMovable types done child (level.cross bound :: levels) = true := by
    intro hall bound child hmem
    rw [List.zip_map_right, List.all_map, List.all_eq_true] at hall
    exact hall (bound, child) hmem
  cases expr with
  | labelledOld | field | forAll => cases hkept
  | magicWand lhs rhs borrow pos =>
    have hquiet := List.all_eq_true.mp h
    exact .inl ⟨lhs, rhs, borrow, pos, rfl, hquiet lhs List.mem_cons_self,
      hquiet rhs (List.mem_cons_of_mem _ List.mem_cons_self)⟩
  | fieldAccessPredicate base perm pos =>
    rw [treatment, Bool.and_eq_true, List.all_eq_true, List.all_eq_true] at h
    refine .inr ⟨?_, rfl, ?_⟩
    · intro bound child hmem
      cases List.mem_singleton.mp hmem
      exact h.2 _ (List.mem_singleton.mpr rfl)
    · rintro _ _ _ ⟨⟩
      simpa using h.1 base (List.mem_singleton.mpr rfl)
  | _ => exact .inr ⟨hzip h, rfl, fun _ _ _ => (nomatch ·)⟩

/-- What is pulled out crosses the binders. -/
theorem isMovable_pulled {levels : List Level} (hpulled : isPulled level.vars expr = true)
    (h : isMovable types done expr (level :: levels) = true) :
    isAmong types expr = true ∧ level.allows expr = true ∧
      isMovable types done expr levels = true := by
  rw [isMovable_eq] at h ⊢
  unfold isMovableNode at h
  rw [if_pos (mayPull_of_isPulled hpulled), Bool.and_eq_true, Bool.and_eq_true] at h
  exact ⟨h.1.1, h.1.2, h.2⟩

end Movable

section Quiet

variable {vars : List LocalVar}

/-- A quiet expression has quiet parts, as far as they are entered. -/
theorem isQuiet_entered {expr : Expr} (h : isQuiet vars expr = true) :
    isPulled vars expr = false ∧
      (isKept expr = false → ∀ child ∈ expr.children, isQuiet vars child = true) := by
  rw [isQuiet_eq, Bool.and_eq_true, Bool.not_eq_true'] at h
  refine ⟨?_, ?_⟩
  · by_contra hne
    rw [Bool.not_eq_false] at hne
    rw [mayPull_of_isPulled hne] at h
    cases h.1
  · intro hkept child hchild
    have hparts : (expr.children.map (isQuiet vars)).all id = true := by
      cases expr <;> first
        | exact h.2
        | cases hkept
    exact List.all_eq_true.mp hparts _ (List.mem_map_of_mem hchild)

theorem pulledNodes_of_isQuiet (expr : Expr) (h : isQuiet vars expr = true) :
    pulledNodes vars expr = [] := by
  induction expr using Expr.children_induction with
  | h expr ih _ =>
  obtain ⟨hpulled, hparts⟩ := isQuiet_entered h
  rw [pulledNodes_eq, if_neg (Bool.eq_false_iff.mp hpulled)]
  cases hkept : isKept expr with
  | true => rfl
  | false =>
    rw [if_neg Bool.false_ne_true, List.flatten_eq_nil_iff]
    intro nodes hnodes
    obtain ⟨child, hchild, rfl⟩ := List.mem_map.mp hnodes
    exact ih child hchild (hparts hkept child hchild)

/-- A node with the same parts is the same. -/
theorem rebuild_of_same {node : Expr} {parts : List Expr}
    (h : List.Forall₂ (fun child part => part = child) node.children parts) :
    node.rebuild parts = node := by
  have hsame : node.children = parts := by
    rw [← List.forall₂_eq_eq_eq]
    exact h.imp fun _ _ => Eq.symm
  rw [← hsame, Expr.rebuild_children]

/-- Nothing changes in an expression that nothing is pulled out of. -/
theorem eq_of_abstracts {entries : List (Expr × LocalVar)} (expr : Expr)
    (h : pulledNodes vars expr = []) :
    ∀ expr', Abstracts vars entries expr expr' → expr' = expr := by
  induction expr using Expr.children_induction with
  | h expr ih _ =>
  intro expr' habs
  rcases habs.inversion with ⟨hpulled, _⟩ | ⟨_, _, heq⟩ | ⟨hpulled, hkept, exprs, hparts, rfl⟩
  · rw [pulledNodes_eq, if_pos hpulled] at h
    cases h
  · exact heq
  · refine rebuild_of_same (forall₂_imp_mem hparts ?_)
    intro child hchild part _ hpart
    refine ih child hchild ?_ part hpart
    refine List.eq_nil_iff_forall_not_mem.mpr fun node hnode => ?_
    have hmem := mem_pulledNodes_of_child hpulled hkept hchild hnode
    rw [h] at hmem
    cases hmem

end Quiet

section Pulled

variable {types : Option (List Typ)} {done : Bool}

/-- What holds of a node that is pulled out of an expression. -/
structure MovesOut (types : Option (List Typ)) (done : Bool) (level : Level)
    (levels : List Level) (expr node : Expr) : Prop where
  among : isAmong types node = true
  free : ∀ name ∈ node.free, name ∈ expr.free ∧ name ∉ level.crossed
  movable : isMovable types done node levels = true
  names : node.names ⊆ expr.names
  types : node.quantTypes ⊆ expr.quantTypes
  find : ∀ target, node.find target = true → expr.find target = true

theorem movesOut_of_mem_pulledNodes {levels : List Level} (expr : Expr) :
    ∀ level, isMovable types done expr (level :: levels) = true →
      ∀ node ∈ pulledNodes level.vars expr, MovesOut types done level levels expr node := by
  induction expr using Expr.children_induction with
  | h expr ih _ =>
  intro level h node hnode
  rw [pulledNodes_eq] at hnode
  cases hpulled : isPulled level.vars expr with
  | true =>
    rw [if_pos hpulled, List.mem_singleton] at hnode
    subst hnode
    obtain ⟨hamong, hallows, hmovable⟩ := isMovable_pulled hpulled h
    exact ⟨hamong, fun name hname => ⟨hname, Level.allows_iff.mp hallows name hname⟩, hmovable,
      List.Subset.refl _, List.Subset.refl _, fun _ => id⟩
  | false =>
    rw [if_neg (Bool.eq_false_iff.mp hpulled)] at hnode
    cases hkept : isKept expr with
    | true =>
      rw [if_pos hkept] at hnode
      cases hnode
    | false =>
      rw [if_neg (Bool.eq_false_iff.mp hkept)] at hnode
      obtain ⟨_, hmem, hin⟩ := List.mem_flatten.mp hnode
      obtain ⟨child, hchild, rfl⟩ := List.mem_map.mp hmem
      rcases isMovable_entered hpulled hkept h with
        ⟨lhs, rhs, borrow, pos, rfl, hlhs, hrhs⟩ | ⟨hparts, _⟩
      · exfalso
        simp only [Expr.children, List.mem_cons, List.not_mem_nil, or_false] at hchild
        rcases hchild with rfl | rfl
        · rw [pulledNodes_of_isQuiet _ hlhs] at hin
          cases hin
        · rw [pulledNodes_of_isQuiet _ hrhs] at hin
          cases hin
      · obtain ⟨bound, hbound⟩ := Expr.exists_mem_binders_zip hchild
        have hout := ih child hchild (level.cross bound) (hparts bound child hbound) node hin
        refine ⟨hout.among, ?_, hout.movable,
          List.Subset.trans hout.names (Expr.names_child hchild),
          List.Subset.trans hout.types (Expr.quantTypes_child hchild), ?_⟩
        · intro name hname
          obtain ⟨hfree, hcrossed⟩ := hout.free name hname
          rw [Level.cross, List.mem_append, not_or] at hcrossed
          exact ⟨Expr.mem_free_of_child hbound hfree hcrossed.1, hcrossed.2⟩
        · intro target htarget
          exact Expr.find_iff.mpr (.inr ⟨child, hchild, hout.find target htarget⟩)

end Pulled

section Abstracted

variable {vars : List LocalVar} {entries : List (Expr × LocalVar)}

/-- The variable of one of the lets. -/
def IsLet (entries : List (Expr × LocalVar)) (name : String) : Prop :=
  ∃ entry ∈ entries, entry.2.name = name

theorem Linked.isLet {node : Expr} {var : LocalVar} (h : Linked entries node var) :
    IsLet entries var.name := by
  obtain ⟨key, hmem, _⟩ := h
  exact ⟨(key, var), hmem, rfl⟩

theorem Abstracts.mem_free (expr : Expr) :
    ∀ expr', Abstracts vars entries expr expr' →
      ∀ name ∈ expr'.free, name ∈ expr.free ∨ IsLet entries name := by
  induction expr using Expr.children_induction with
  | h expr ih _ =>
  intro expr' habs name hname
  rcases habs.inversion with ⟨_, var, pos, rfl, hlinked⟩ | ⟨_, _, rfl⟩ |
    ⟨_, _, exprs, hparts, rfl⟩
  · have heq : name = var.name := by
      simpa [Expr.free_eq, Expr.freeNode] using hname
    rw [heq]
    exact .inr hlinked.isLet
  · exact .inl hname
  · refine Expr.mem_free_rebuild _ (forall₂_imp_mem hparts ?_) hname
    intro child hchild part _ hpart
    exact ih child hchild part hpart

theorem Abstracts.mem_names (expr : Expr) :
    ∀ expr', Abstracts vars entries expr expr' →
      ∀ name ∈ expr'.names, name ∈ expr.names ∨ IsLet entries name := by
  induction expr using Expr.children_induction with
  | h expr ih _ =>
  intro expr' habs name hname
  rcases habs.inversion with ⟨_, var, pos, rfl, hlinked⟩ | ⟨_, _, rfl⟩ |
    ⟨_, _, exprs, hparts, rfl⟩
  · have heq : name = var.name := by
      simpa [Expr.names_localVar] using hname
    rw [heq]
    exact .inr hlinked.isLet
  · exact .inl hname
  · refine Expr.mem_names_rebuild _ (forall₂_imp_mem hparts ?_) hname
    intro child hchild part _ hpart
    exact ih child hchild part hpart

theorem Abstracts.types_subset (expr : Expr) :
    ∀ expr', Abstracts vars entries expr expr' → expr'.quantTypes ⊆ expr.quantTypes := by
  induction expr using Expr.children_induction with
  | h expr ih _ =>
  intro expr' habs
  rcases habs.inversion with ⟨_, var, pos, rfl, _⟩ | ⟨_, _, rfl⟩ | ⟨_, _, exprs, hparts, rfl⟩
  · exact List.nil_subset _
  · exact List.Subset.refl _
  · refine Expr.quantTypes_rebuild (forall₂_imp_mem hparts ?_)
    intro child hchild part _ hpart
    exact ih child hchild part hpart

/-- A variable is found in the abstracted expression or in one of the lets. -/
theorem Abstracts.find_or {target : LocalVar} (htarget : ¬ IsLet entries target.name)
    (expr : Expr) : ∀ expr', Abstracts vars entries expr expr' →
      (expr'.find (.ofLocal target) = true → expr.find (.ofLocal target) = true) ∧
      (expr.find (.ofLocal target) = true → expr'.find (.ofLocal target) = true ∨
        ∃ entry ∈ entries, entry.1.find (.ofLocal target) = true) := by
  induction expr using Expr.children_induction with
  | h expr ih _ =>
  intro expr' habs
  rcases habs.inversion with ⟨_, var, pos, rfl, hlinked⟩ | ⟨_, _, rfl⟩ |
    ⟨_, _, exprs, hparts, rfl⟩
  · constructor
    · intro hfind
      have hname := Expr.mem_names_of_find hfind
      have heq : target.name = var.name := by
        simpa [Expr.names_localVar] using hname
      rw [heq] at htarget
      exact absurd hlinked.isLet htarget
    · intro hfind
      obtain ⟨key, hmem, heq | hbeq⟩ := hlinked
      · exact .inr ⟨(key, var), hmem, heq ▸ hfind⟩
      · exact .inr ⟨(key, var), hmem, (Expr.find_congr key expr hbeq).trans hfind⟩
  · exact ⟨id, .inl⟩
  · have hlength := hparts.length_eq.symm
    rw [Expr.find_iff, Expr.find_iff, Expr.children_rebuild hlength,
      Expr.beq_ofLocal_rebuild hlength]
    constructor
    · rintro (hself | ⟨part, hpart, hfind⟩)
      · exact .inl hself
      · obtain ⟨child, hchild, hrel⟩ := exists_of_forall₂_mem_right hparts hpart
        exact .inr ⟨child, hchild, (ih child hchild part hrel).1 hfind⟩
    · rintro (hself | ⟨child, hchild, hfind⟩)
      · exact .inl (.inl hself)
      · obtain ⟨part, hpart, hrel⟩ := exists_of_forall₂_mem hparts hchild
        apply ((ih child hchild part hrel).2 hfind).imp_left
        intro hpartFind
        exact .inr ⟨part, hpart, hpartFind⟩

end Abstracted

section Meaning

variable {M : TotalModel} {entries : List (Expr × LocalVar)}

variable {state : M.State} {env env' : M.Env} {expr : Expr}

/-- What is kept means the same, as only the lets have other values. -/
theorem agrees_of_not_isLet (hnames : ∀ name ∈ expr.names, ¬ IsLet entries name)
    (henv : ∀ name, ¬ IsLet entries name → env' name = env name) :
    TotalModel.Meaning.Agrees {state} env' env (M.meaning expr) (M.meaning expr) := by
  refine (TotalModel.agrees_meaning expr env' env ?_).mono (Set.subset_univ _)
  intro name hname
  exact henv name (hnames name (Expr.free_subset_names expr hname))

/-- What the values of the variables are inside of the replaced body. -/
structure LetEnv (entries : List (Expr × LocalVar)) (types : List Typ) (state : M.State)
    (level : Level) (env₀ env env' : M.Env) : Prop where
  outer : ∀ name, name ∉ level.crossed → env name = env₀ name
  other : ∀ name, ¬ IsLet entries name → env' name = env name
  lets : ∀ node var, isAmong (some types) node = true → Linked entries node var →
    env' var.name = M.eval node state env₀

/-- A binder that is crossed binds the same values. -/
theorem LetEnv.bind {types : List Typ} {level : Level} {env₀ : M.Env}
    (h : LetEnv entries types state level env₀ env env') (vars : List LocalVar)
    (hvars : ∀ var ∈ vars, ¬ IsLet entries var.name) (values : List M.V)
    (hlength : vars.length = values.length) :
    LetEnv entries types state (level.cross (vars.map (·.name))) env₀
      (env.bind vars values) (env'.bind vars values) := by
  refine ⟨?_, ?_, ?_⟩
  · intro name hname
    rw [Level.cross, List.mem_append, not_or] at hname
    rw [TotalModel.Env.bind_of_not_mem hname.1]
    exact h.outer name hname.2
  · intro name hname
    exact TotalModel.Env.bind_congr hlength fun _ => h.other name hname
  · intro node var hamong hlinked
    rw [TotalModel.Env.bind_of_not_mem]
    · exact h.lets node var hamong hlinked
    · intro hmem
      obtain ⟨bound, hbound, hname⟩ := List.mem_map.mp hmem
      exact hvars bound hbound (hname ▸ hlinked.isLet)

/-- The same value in a state, and the same location unless that is replaced. -/
def Same (state : M.State) (env env' : M.Env) (expr expr' : Expr) : Prop :=
  M.eval expr' state env' = M.eval expr state env ∧
    (isLocation expr = false →
      TotalModel.Meaning.Agrees {state} env' env (M.meaning expr') (M.meaning expr))

theorem same_of_agrees {expr' : Expr}
    (h : TotalModel.Meaning.Agrees {state} env' env (M.meaning expr') (M.meaning expr)) :
    Same state env env' expr expr' :=
  ⟨h.value state rfl, fun _ => h⟩

theorem same_of_eval {expr' : Expr} (h : M.eval expr' state env' = M.eval expr state env)
    (hloc : (M.meaning expr').loc = none) (hloc' : (M.meaning expr).loc = none) :
    Same state env env' expr expr' := by
  refine ⟨h, fun _ => ⟨?_, ?_⟩⟩
  · rintro _ rfl
    exact h
  · rw [hloc, hloc']
    exact .none

theorem meaning_rebuild {exprs : List Expr} (h : exprs.length = expr.children.length) :
    M.meaning (expr.rebuild exprs) = M.meaningNode expr (exprs.map M.meaning) := by
  rw [TotalModel.meaning_eq, Expr.children_rebuild h, TotalModel.meaningNode_rebuild M h]

/-- A node that binds nothing and stays in the state. -/
theorem same_rebuild {exprs : List Expr} (hplain : expr.isBinder = false)
    (hmodal : expr.isModal = false) (hkept : isKept expr = false)
    (hvar : ∀ var pos, expr = .localVar var pos → env' var.name = env var.name)
    (haccess : ∀ base perm pos, expr = .fieldAccessPredicate base perm pos →
      isLocation base = false) (hparts : List.Forall₂ (Same state env env') expr.children exprs) :
    Same state env env' expr (expr.rebuild exprs) := by
  have hmeaning := meaning_rebuild (M := M) hparts.length_eq.symm
  have hvalues : List.Forall₂ (fun part child => ∀ state' ∈ ({state} : Set M.State),
      part.value state' env' = child.value state' env)
      (exprs.map M.meaning) (expr.children.map M.meaning) := by
    rw [List.forall₂_map_left_iff, List.forall₂_map_right_iff]
    refine List.Forall₂.flip (hparts.imp ?_)
    rintro child part hpart _ rfl
    exact hpart.1
  have hnotModal : expr.isModal = true → ({state} : Set M.State) = Set.univ := by
    rw [hmodal]
    exact fun h => absurd h Bool.false_ne_true
  cases expr with
  | fieldAccessPredicate base perm pos =>
    rcases hparts with _ | ⟨hbase, _ | _⟩
    have hagrees := hbase.2 (haccess base perm pos rfl)
    apply same_of_eval
    · rw [TotalModel.eval, TotalModel.eval, hmeaning, TotalModel.meaning_eq M
        (.fieldAccessPredicate base perm pos)]
      exact TotalModel.accessValue_congr hagrees perm rfl
    · rw [hmeaning]
      rfl
    · rw [TotalModel.meaning_eq]
      rfl
  | unfolding name args base perm index pos =>
    have hlast : (args ++ [base]).getLast? = some base := List.getLast?_concat
    obtain ⟨part, hpart, hbase⟩ := getLast?_of_forall₂ hparts hlast
    have hrebuild : (Expr.unfolding name args base perm index pos).rebuild exprs =
        .unfolding name exprs.dropLast part perm index pos := by
      simp only [Expr.rebuild, List.getLastD_eq_getLast?, hpart, Option.getD_some]
    rw [hrebuild]
    unfold Same TotalModel.eval
    rw [TotalModel.meaning_unfolding, TotalModel.meaning_unfolding]
    exact hbase
  | labelledOld | field | forAll => cases hkept
  | letExpr | exist => cases hplain
  | magicWand => cases hmodal
  | _ =>
    apply same_of_eval
    · rw [TotalModel.eval, TotalModel.eval, hmeaning, TotalModel.meaning_eq M]
      exact TotalModel.valueNode_congr hplain hnotModal rfl hvar hvalues rfl
    · rw [hmeaning]
      rfl
    · rw [TotalModel.meaning_eq]
      rfl

/-- The abstracted expression has the value of the expression, where the lets have the
values of the nodes that they stand for. -/
theorem Abstracts.same {types : List Typ} {env₀ : M.Env} {levels : List Level} (expr : Expr) :
    ∀ expr' level env env', Abstracts level.vars entries expr expr' →
      isMovable (some types) true expr (level :: levels) = true →
      (∀ name ∈ expr.names, ¬ IsLet entries name) →
      LetEnv entries types state level env₀ env env' → Same state env env' expr expr' := by
  induction expr using Expr.children_induction with
  | h expr ih _ =>
  intro expr' level env env' habs hmovable hnames henv
  have hself : Same state env env' expr expr :=
    same_of_agrees (agrees_of_not_isLet hnames henv.other)
  rcases habs.inversion with ⟨hpulled, var, pos, rfl, hlinked⟩ | ⟨_, _, rfl⟩ |
    ⟨hpulled, hkept, exprs, hparts, rfl⟩
  · obtain ⟨hamong, hallows, _⟩ := isMovable_pulled hpulled hmovable
    have hvalue : M.eval (.localVar var pos) state env' = M.eval expr state env := by
      calc M.eval (.localVar var pos) state env'
        _ = env' var.name := by rw [TotalModel.eval, TotalModel.meaning_eq]; rfl
        _ = M.eval expr state env₀ := henv.lets expr var hamong hlinked
        _ = M.eval expr state env := by
          refine (TotalModel.eval_congr ?_ state).symm
          intro name hname
          exact henv.outer name (Level.allows_iff.mp hallows name hname)
    have hloc : (M.meaning (.localVar var pos)).loc = none := by
      rw [TotalModel.meaning_eq]
      rfl
    cases expr with
    | labelledOld | binOp =>
      apply same_of_eval hvalue hloc
      rw [TotalModel.meaning_eq]
      rfl
    | field base =>
      cases base with
      | localVar => exact ⟨hvalue, fun h => by cases h⟩
      | _ => cases hpulled
    | _ => cases hpulled
  · exact hself
  · rcases isMovable_entered hpulled hkept hmovable with
      ⟨lhs, rhs, borrow, pos, rfl, hlhs, hrhs⟩ | ⟨hmoves, hmodal, haccess⟩
    · -- Nothing is pulled out of a wand.
      rcases hparts with _ | ⟨hleft, _ | ⟨hright, _ | _⟩⟩
      cases eq_of_abstracts lhs (pulledNodes_of_isQuiet lhs hlhs) _ hleft
      cases eq_of_abstracts rhs (pulledNodes_of_isQuiet rhs hrhs) _ hright
      exact hself
    · have hpart : ∀ bound child part env env',
          (bound, child) ∈ expr.binders.zip expr.children →
          Abstracts level.vars entries child part →
          LetEnv entries types state (level.cross bound) env₀ env env' →
          Same state env env' child part := by
        intro bound child part env env' hmem hrel henv
        have hchild := (List.of_mem_zip hmem).2
        exact ih child hchild part (level.cross bound) env env' hrel (hmoves bound child hmem)
          (fun name hname => hnames name (Expr.names_child hchild hname)) henv
      cases hbinder : expr.isBinder with
      | false =>
        refine same_rebuild hbinder hmodal hkept ?_ haccess ?_
        · rintro var pos rfl
          exact henv.other var.name (hnames _ (by simp [Expr.names_localVar]))
        · refine forall₂_imp_mem hparts ?_
          intro child hchild part _ hrel
          exact hpart [] child part env env' (Expr.mem_binders_zip hbinder hchild) hrel henv
      | true =>
        cases expr with
        | exist vars triggers body pos =>
          rcases hparts with _ | ⟨hbody, _ | _⟩
          apply same_of_eval
          · change M.eval (.exist vars triggers _ pos) state env' = _
            rw [TotalModel.eval_exist, TotalModel.eval_exist]
            congr 1
            refine propext (exists_congr fun values => and_congr_right fun hvalues => ?_)
            have hvars : ∀ var ∈ vars, ¬ IsLet entries var.name := by
              intro var hvar
              apply hnames
              exact Expr.mem_names_iff.mpr (.inl (List.mem_map_of_mem hvar))
            have hinner := henv.bind vars hvars values (List.Forall₂.length_eq hvalues)
            rw [(hpart _ body _ _ _ (List.mem_singleton.mpr rfl) hbody hinner).1]
          · rw [TotalModel.meaning_eq]
            rfl
          · rw [TotalModel.meaning_eq]
            rfl
        | letExpr var value body pos =>
          rcases hparts with _ | ⟨hvalue, _ | ⟨hbody, _ | _⟩⟩
          apply same_of_eval
          · change M.eval (.letExpr var _ _ pos) state env' = _
            rw [TotalModel.eval_letExpr, TotalModel.eval_letExpr,
              (hpart [] value _ env env' List.mem_cons_self hvalue henv).1]
            have hvars : ∀ bound ∈ [var], ¬ IsLet entries bound.name := by
              intro bound hbound
              rw [List.mem_singleton.mp hbound]
              apply hnames
              exact Expr.mem_names_iff.mpr (.inl (List.mem_singleton.mpr rfl))
            have hinner := henv.bind [var] hvars [M.eval value state env] rfl
            exact (hpart [var.name] body _ _ _
              (List.mem_cons_of_mem _ (List.mem_singleton.mpr rfl)) hbody hinner).1
          · rw [TotalModel.meaning_eq]
            rfl
          · rw [TotalModel.meaning_eq]
            rfl
        | forAll => cases hkept
        | _ => cases hbinder

end Meaning

end Prusti.Optimizations.QuantifierFixer

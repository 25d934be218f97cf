/-
The equality of expressions as it is computed, with the assertion that two expressions of
one kind are compared by an arm of their own, and the data that expressions feed to a hash
function.
-/
import Prusti.Vir.Nodes

namespace Prusti.Vir

/-- Compare what is left, if what was compared so far is equal.  `none` stands for a failed
assertion. -/
def andAlso (equal rest : Option Bool) : Option Bool :=
  equal.bind fun equal => if equal then rest else some false

@[simp] theorem andAlso_eq_some_true_iff (equal rest : Option Bool) :
    andAlso equal rest = some true ↔ equal = some true ∧ rest = some true := by
  rcases equal with _ | _ | _ <;> simp [andAlso]

@[simp] theorem andAlso_some (equal rest : Bool) :
    andAlso (some equal) (some rest) = some (equal && rest) := by
  cases equal <;> rfl

namespace Expr

mutual

/-- The equality, as it is computed.  Sequences are compared by their lengths first. -/
def eqChecked : Expr → Expr → Option Bool
  | localVar var _, localVar var' _ => some (var == var')
  | variant base index _, variant base' index' _ =>
    andAlso (eqChecked base base') (some (index == index'))
  | field base fld _, field base' fld' _ => andAlso (eqChecked base base') (some (fld == fld'))
  | addrOf base typ _, addrOf base' typ' _ => andAlso (eqChecked base base') (some (typ == typ'))
  | labelledOld label base _, labelledOld label' base' _ =>
    andAlso (some (label == label')) (eqChecked base base')
  | const value _, const value' _ => some (value == value')
  | magicWand lhs rhs borrow _, magicWand lhs' rhs' borrow' _ =>
    andAlso (eqChecked lhs lhs') (andAlso (eqChecked rhs rhs') (some (borrow == borrow')))
  | predicateAccessPredicate name arg perm _, predicateAccessPredicate name' arg' perm' _ =>
    andAlso (some (name == name')) (andAlso (eqChecked arg arg') (some (perm == perm')))
  | fieldAccessPredicate base perm _, fieldAccessPredicate base' perm' _ =>
    andAlso (eqChecked base base') (some (perm == perm'))
  | unaryOp op arg _, unaryOp op' arg' _ => andAlso (some (op == op')) (eqChecked arg arg')
  | binOp op left right _, binOp op' left' right' _ =>
    andAlso (some (op == op')) (andAlso (eqChecked left left') (eqChecked right right'))
  | containerOp op left right _, containerOp op' left' right' _ =>
    andAlso (some (op == op')) (andAlso (eqChecked left left') (eqChecked right right'))
  | seq typ elems _, seq typ' elems' _ =>
    andAlso (some (typ == typ'))
      (andAlso (some (elems.length == elems'.length)) (eqListChecked elems elems'))
  | cond guard thenExpr elseExpr _, cond guard' thenExpr' elseExpr' _ =>
    andAlso (eqChecked guard guard')
      (andAlso (eqChecked thenExpr thenExpr') (eqChecked elseExpr elseExpr'))
  | forAll vars triggers body _, forAll vars' triggers' body' _
  | exist vars triggers body _, exist vars' triggers' body' _ =>
    andAlso (some (vars == vars'))
      (andAlso (andAlso (some (triggers.length == triggers'.length))
        (eqTriggersChecked triggers triggers')) (eqChecked body body'))
  | letExpr var expr body _, letExpr var' expr' body' _ =>
    andAlso (some (var == var')) (andAlso (eqChecked expr expr') (eqChecked body body'))
  | funcApp name args _ _ _, funcApp name' args' _ _ _ =>
    andAlso (some (name == name'))
      (andAlso (some (args.length == args'.length)) (eqListChecked args args'))
  | unfolding name args base perm index _, unfolding name' args' base' perm' index' _ =>
    andAlso (some (name == name'))
      (andAlso (andAlso (some (args.length == args'.length)) (eqListChecked args args'))
        (andAlso (eqChecked base base') (some (perm == perm' && index == index'))))
  | domainFuncApp func args _, domainFuncApp func' args' _ =>
    andAlso (some (func == func'))
      (andAlso (some (args.length == args'.length)) (eqListChecked args args'))
  | snapApp expr _, snapApp expr' _ => eqChecked expr expr'
  -- the last arm asserts that the two expressions are of different kinds
  | inhaleExhale _ _ _, inhaleExhale _ _ _ | downcast _ _ _, downcast _ _ _ => none
  | _, _ => some false

def eqListChecked : List Expr → List Expr → Option Bool
  | expr :: rest, expr' :: rest' => andAlso (eqChecked expr expr') (eqListChecked rest rest')
  | _, _ => some true

def eqTriggersChecked : List (List Expr) → List (List Expr) → Option Bool
  | trigger :: rest, trigger' :: rest' =>
    andAlso (andAlso (some (trigger.length == trigger'.length))
      (eqListChecked trigger trigger')) (eqTriggersChecked rest rest')
  | _, _ => some true

end

/-- The equality has an arm for the node. -/
def isCompared : Expr → Bool
  | inhaleExhale _ _ _ | downcast _ _ _ => false
  | _ => true

/-- Every node has an arm. -/
def Compared (expr : Expr) : Prop := ∀ node ∈ expr.nodes, node.isCompared = true

theorem compared_iff {expr : Expr} :
    Compared expr ↔ expr.isCompared = true ∧ (∀ child ∈ expr.children, Compared child) ∧
      ∀ trigger ∈ expr.triggers, ∀ part ∈ trigger, Compared part := by
  simp only [Compared, @mem_nodes_iff expr]
  constructor
  · intro h
    exact ⟨h expr (.inl rfl),
      fun child hchild node hnode => h node (.inr (.inl ⟨child, hchild, hnode⟩)),
      fun trigger htrigger part hpart node hnode =>
        h node (.inr (.inr ⟨trigger, htrigger, part, hpart, hnode⟩))⟩
  · rintro ⟨hself, hchildren, htriggers⟩ node (rfl | ⟨child, hchild, hnode⟩ |
      ⟨trigger, htrigger, part, hpart, hnode⟩)
    · exact hself
    · exact hchildren child hchild node hnode
    · exact htriggers trigger htrigger part hpart node hnode

theorem length_eq_of_eqList {left right : List Expr} (h : eqList left right = true) :
    left.length = right.length := by
  induction left generalizing right with
  | nil =>
    cases right with
    | nil => rfl
    | cons => cases h
  | cons expr left ih =>
    cases right with
    | nil => cases h
    | cons expr' right =>
      rw [eqList, Bool.and_eq_true] at h
      rw [List.length_cons, List.length_cons, ih h.2]

theorem length_eq_of_eqTriggers {left right : List (List Expr)}
    (h : eqTriggers left right = true) : left.length = right.length := by
  induction left generalizing right with
  | nil =>
    cases right with
    | nil => rfl
    | cons => cases h
  | cons trigger left ih =>
    cases right with
    | nil => cases h
    | cons trigger' right =>
      rw [eqTriggers, Bool.and_eq_true] at h
      rw [List.length_cons, List.length_cons, ih h.2]

/-- Comparing the lengths first makes no difference to the result. -/
theorem andAlso_length {α : Type} {left right : List α} {checked : Option Bool} {equal : Bool}
    (hlength : equal = true → left.length = right.length)
    (h : left.length = right.length → checked = some equal) :
    andAlso (some (left.length == right.length)) checked = some equal := by
  by_cases hlen : left.length = right.length
  · rw [h hlen]
    simp [hlen]
  · cases equal with
    | true => exact absurd (hlength rfl) hlen
    | false => simp [andAlso, hlen]

theorem eqChecked_of_compared :
    (∀ left right : Expr, Compared left → eqChecked left right = some (eq left right)) ∧
      (∀ left right : List (List Expr),
        (∀ trigger ∈ left, ∀ part ∈ trigger, Compared part) → left.length = right.length →
          eqTriggersChecked left right = some (eqTriggers left right)) ∧
      (∀ left right : List Expr, (∀ expr ∈ left, Compared expr) → left.length = right.length →
        eqListChecked left right = some (eqList left right)) := by
  apply Expr.eqChecked.mutual_induct
  case case24 =>
    intros
    rw [eqChecked, eq] <;> assumption
  all_goals intros
  case case13 ih h | case18 ih h | case20 ih h =>
    obtain ⟨-, hchildren, -⟩ := compared_iff.mp h
    rw [eqChecked, eq, andAlso_length length_eq_of_eqList (ih hchildren), andAlso_some]
  case case15 ih ihbody h | case16 ih ihbody h =>
    obtain ⟨-, hchildren, htriggers⟩ := compared_iff.mp h
    rw [eqChecked, eq, andAlso_length length_eq_of_eqTriggers (ih htriggers),
      ihbody (hchildren _ List.mem_cons_self), andAlso_some, andAlso_some, Bool.and_assoc]
  case case19 ih ihbase h =>
    obtain ⟨-, hchildren, -⟩ := compared_iff.mp h
    rw [children, List.forall_mem_append, List.forall_mem_singleton] at hchildren
    rw [eqChecked, eq, andAlso_length length_eq_of_eqList (ih hchildren.1),
      ihbase hchildren.2, andAlso_some, andAlso_some, andAlso_some]
    simp only [Bool.and_assoc]
  case case22 h | case23 h => exact absurd (compared_iff.mp h).1 Bool.false_ne_true
  case case1 | case6 => rw [eqChecked, eq]
  case case2 ih h | case3 ih h | case4 ih h | case5 ih h | case8 ih h | case9 ih h | case10 ih h
      | case21 ih h =>
    have hchild := ih ((compared_iff.mp h).2.1 _ List.mem_cons_self)
    simp only [eqChecked, eq, hchild, andAlso_some, Bool.and_assoc]
  case case7 ihleft ihright h | case11 ihleft ihright h | case12 ihleft ihright h
      | case17 ihleft ihright h =>
    have hchildren := (compared_iff.mp h).2.1
    have hleft := ihleft (hchildren _ List.mem_cons_self)
    have hright := ihright (hchildren _ (List.mem_cons_of_mem _ List.mem_cons_self))
    simp only [eqChecked, eq, hleft, hright, andAlso_some, Bool.and_assoc]
  case case14 ihguard ihthen ihelse h =>
    have hchildren := (compared_iff.mp h).2.1
    simp only [children, List.forall_mem_cons] at hchildren
    simp only [eqChecked, eq, ihguard hchildren.1, ihthen hchildren.2.1, ihelse hchildren.2.2.1,
      andAlso_some, Bool.and_assoc]
  case case25 ih ihrest hcompared hlength =>
    rw [List.forall_mem_cons] at hcompared
    rw [eqListChecked, eqList, ih hcompared.1, ihrest hcompared.2 (Nat.succ.inj hlength),
      andAlso_some]
  case case27 ih ihrest hcompared hlength =>
    rw [List.forall_mem_cons] at hcompared
    rw [eqTriggersChecked, eqTriggers, andAlso_length length_eq_of_eqList (ih hcompared.1),
      ihrest hcompared.2 (Nat.succ.inj hlength), andAlso_some]
  case case26 left right hnot _ hlength | case28 left right hnot _ hlength =>
    cases left with
    | nil => rw [List.length_eq_zero_iff.mp hlength.symm]; rfl
    | cons first left =>
      cases right with
      | nil => cases hlength
      | cons first' right => exact (hnot _ _ _ _ rfl rfl).elim

theorem compared_of_children {expr : Expr} (hself : expr.isCompared = true)
    (htriggers : expr.triggers = []) (h : ∀ child ∈ expr.children, Compared child) :
    Compared expr :=
  compared_iff.mpr ⟨hself, h, by simp [htriggers]⟩

/-- What is found equal has an arm for every node. -/
theorem compared_of_eqChecked :
    (∀ left right : Expr, eqChecked left right = some true → Compared left) ∧
      (∀ left right : List (List Expr), eqTriggersChecked left right = some true →
        left.length = right.length → ∀ trigger ∈ left, ∀ part ∈ trigger, Compared part) ∧
      (∀ left right : List Expr, eqListChecked left right = some true →
        left.length = right.length → ∀ expr ∈ left, Compared expr) := by
  apply Expr.eqChecked.mutual_induct
  case case24 =>
    intros
    rename_i h
    rw [eqChecked] at h
    · cases h
    all_goals assumption
  case case25 =>
    intro expr rest expr' rest' ih ihrest h hlength
    rw [eqListChecked, andAlso_eq_some_true_iff] at h
    exact List.forall_mem_cons.mpr ⟨ih h.1, ihrest h.2 (Nat.succ.inj hlength)⟩
  case case27 =>
    intro trigger rest trigger' rest' ih ihrest h hlength
    simp only [eqTriggersChecked, andAlso_eq_some_true_iff, Option.some.injEq, beq_iff_eq] at h
    exact List.forall_mem_cons.mpr ⟨ih h.1.2 h.1.1, ihrest h.2 (Nat.succ.inj hlength)⟩
  case case26 | case28 =>
    intro left right hnot _ hlength
    cases left with
    | nil => exact List.forall_mem_nil _
    | cons first left =>
      cases right with
      | nil => cases hlength
      | cons first' right => exact (hnot _ _ _ _ rfl rfl).elim
  all_goals intros
  case case1 | case6 => exact compared_of_children rfl rfl (List.forall_mem_nil _)
  case case22 h | case23 h => cases h
  -- what is left are the pairs that an arm compares
  all_goals rename_i h
  all_goals simp only [eqChecked, andAlso_eq_some_true_iff, Option.some.injEq, beq_iff_eq] at h
  case case2 ih | case3 ih | case4 ih | case9 ih =>
    exact compared_of_children rfl rfl (List.forall_mem_singleton.mpr (ih h.1))
  case case5 ih | case10 ih =>
    exact compared_of_children rfl rfl (List.forall_mem_singleton.mpr (ih h.2))
  case case8 ih =>
    exact compared_of_children rfl rfl (List.forall_mem_singleton.mpr (ih h.2.1))
  case case21 ih =>
    exact compared_of_children rfl rfl (List.forall_mem_singleton.mpr (ih h))
  case case7 ihleft ihright =>
    refine compared_of_children rfl rfl ?_
    exact List.forall_mem_cons.mpr ⟨ihleft h.1, List.forall_mem_singleton.mpr (ihright h.2.1)⟩
  case case11 ihleft ihright | case12 ihleft ihright | case17 ihleft ihright =>
    refine compared_of_children rfl rfl ?_
    exact List.forall_mem_cons.mpr ⟨ihleft h.2.1, List.forall_mem_singleton.mpr (ihright h.2.2)⟩
  case case14 ihguard ihthen ihelse =>
    refine compared_of_children rfl rfl ?_
    simp only [children, List.forall_mem_cons]
    exact ⟨ihguard h.1, ihthen h.2.1, ihelse h.2.2, List.forall_mem_nil _⟩
  case case13 ih | case18 ih | case20 ih =>
    exact compared_of_children rfl rfl (ih h.2.2 h.2.1)
  case case15 ih ihbody | case16 ih ihbody =>
    exact compared_iff.mpr ⟨rfl, List.forall_mem_singleton.mpr (ihbody h.2.2), ih h.2.1.2 h.2.1.1⟩
  case case19 ih ihbase =>
    refine compared_of_children rfl rfl ?_
    rw [children, List.forall_mem_append, List.forall_mem_singleton]
    exact ⟨ih h.2.1.2 h.2.1.1, ihbase h.2.2.1⟩

end Expr

end Prusti.Vir

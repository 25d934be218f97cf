/-
The types of expressions, and how the value of a node depends on its parts.
-/
import Prusti.Vir.Eval
import Prusti.Lib.Lists

namespace Prusti.Vir

open Prusti.Lib

namespace Expr

/-- The type of an operation on sequences. -/
def containerType : ContainerOpKind → Option Typ → Option Typ → Option Typ
  | .seqIndex, some (.seq typ), _ => some typ
  | .seqConcat, left, right => if left = right then left else none
  | .seqLen, _, _ => some .int
  | _, _, _ => none

/-- The type of a node, by the types of its sub-expressions; `none` where it is
not determined. -/
def nodeType : Expr → List (Option Typ) → Option Typ
  | localVar var _, _ => some var.typ
  | variant _ fld _, _ | field _ fld _, _ => some fld.typ
  | addrOf _ typ _, _ => some typ
  | labelledOld _ _ _, types | downcast _ _ _, types => types.headD none
  | const (.bool _) _, _ => some .bool
  | const (.int _) _, _ | const (.bigInt _) _, _ => some .int
  | const .fnPtr _, _ => some (.typedRef "FnPtr")
  | unaryOp .not _ _, _ => some .bool
  | unaryOp .minus _ _, _ => some .int
  | binOp kind _ _ _, _ =>
    match kind with
    | .add | .sub | .mul | .div | .mod => some .int
    | _ => some .bool
  | containerOp kind _ _ _, types =>
    match types with
    | [left, right] => containerType kind left right
    | _ => none
  | seq typ _ _, _ => some typ
  | unfolding _ _ _ _ _ _, types | letExpr _ _ _ _, types => types.getLastD none
  | cond _ _ _ _, types =>
    match types with
    | [_, typ, typ'] => if typ = typ' then typ else none
    | _ => none
  | forAll _ _ _ _, _ | exist _ _ _ _, _ => some .bool
  | funcApp _ _ _ typ _, _ => some typ
  | domainFuncApp func _ _, _ => some func.returnType
  | magicWand _ _ _ _, _ | predicateAccessPredicate _ _ _ _, _
  | fieldAccessPredicate _ _ _, _ | inhaleExhale _ _ _, _ => some .bool
  | snapApp _ _, _ => none

def staticType (expr : Expr) : Option Typ := expr.para fun node types _ => node.nodeType types

theorem staticType_eq (expr : Expr) :
    expr.staticType = expr.nodeType (expr.children.map staticType) :=
  para_eq _ expr

end Expr

namespace Model

variable {M : Model}

variable {den den' : M.Den} {state : M.State} {env : M.Env} {b : Bool} {value : Val M.U} {typ : Typ}

theorem evalNode_rebuild {expr : Expr} {parts : List Expr}
    (h : parts.length = expr.children.length) (dens : List M.Den) :
    M.evalNode (expr.rebuild parts) dens = M.evalNode expr dens := by
  refine Expr.apply_rebuild (f := fun expr => M.evalNode expr dens) ?_ h
  intro expr
  cases expr with
  | unaryOp kind => cases kind <;> rcases dens with _ | ⟨den, _ | ⟨den', dens⟩⟩ <;> rfl
  | forAll | exist | variant | field | addrOf | labelledOld
  | predicateAccessPredicate | fieldAccessPredicate | snapApp =>
    rcases dens with _ | ⟨den, _ | ⟨den', dens⟩⟩ <;> rfl
  | magicWand | binOp | containerOp | letExpr | inhaleExhale | downcast =>
    rcases dens with _ | ⟨den, _ | ⟨den', _ | ⟨den'', dens⟩⟩⟩ <;> rfl
  | cond => rcases dens with _ | ⟨_, _ | ⟨_, _ | ⟨_, _ | ⟨_, _⟩⟩⟩⟩ <;> rfl
  | localVar | const | seq | funcApp | domainFuncApp | unfolding => rfl

/-- Where the first has a value, the second has the same. -/
def Refines (den den' : M.Den) : Prop :=
  ∀ state env value, den state env = some value → den' state env = some value

theorem Refines.refl (den : M.Den) : Refines den den := fun _ _ _ h => h

theorem Refines.trans {den'' : M.Den} (h : Refines den den') (h' : Refines den' den'') :
    Refines den den'' := fun state env value hvalue =>
  h' state env value (h state env value hvalue)

/-- Arguments keep their values. -/
theorem evalAll_refines {parts parts' : List M.Den} (h : List.Forall₂ Refines parts parts')
    {values : List (Val M.U)} (hvalues : evalAll parts state env = some values) :
    evalAll parts' state env = some values := by
  induction h generalizing values with
  | nil => exact hvalues
  | cons hfirst _ ih =>
    obtain ⟨value, hvalue, hmap⟩ := Option.bind_eq_some_iff.mp hvalues
    obtain ⟨rest, hrest, rfl⟩ := Option.map_eq_some_iff.mp hmap
    rw [evalAll, hfirst _ _ _ hvalue, Option.bind_some, ih hrest, Option.map_some]

theorem asBool_eq_some_iff {result : Option (Val M.U)} :
    M.asBool result = some b ↔ result = some (.bool b) := by
  unfold asBool
  split
  · next value => simp
  · next hne =>
      constructor
      · intro h
        cases h
      · intro h
        exact absurd h (hne b)

theorem asBool_refines (h : Refines den den') (hb : M.asBool (den state env) = some b) :
    M.asBool (den' state env) = some b :=
  asBool_eq_some_iff.mpr (h _ _ _ (asBool_eq_some_iff.mp hb))

/-- A defined quantified formula keeps its value. -/
theorem quantify_congr {holds : (List (Val M.U) → Bool) → Prop} {domain : Set (List (Val M.U))}
    {body body' : List (Val M.U) → Option Bool}
    (hholds : ∀ f g : List (Val M.U) → Bool, (∀ values ∈ domain, f values = g values) →
      (holds f ↔ holds g)) (h : ∀ values b, body values = some b → body' values = some b)
    (hvalue : M.quantify holds domain body = some value) :
    M.quantify holds domain body' = some value := by
  unfold quantify at hvalue ⊢
  split at hvalue
  · next hall =>
      have hsame : ∀ values ∈ domain, body' values = body values := by
        intro values hvalues
        obtain ⟨b, hb⟩ := Option.isSome_iff_exists.mp (hall values hvalues)
        rw [hb, h values b hb]
      have hall' : ∀ values ∈ domain, (body' values).isSome = true := by
        intro values hvalues
        rw [hsame values hvalues]
        exact hall values hvalues
      have hiff := hholds (fun values => (body' values).getD false)
        (fun values => (body values).getD false) fun values hvalues => by
          rw [hsame values hvalues]
      rw [if_pos hall', ← hvalue, Option.some.injEq, Val.bool.injEq, decide_eq_decide]
      exact hiff
  · cases hvalue

theorem shortOp_refines {kind : BinOpKind} {left left' right right' : Option Bool}
    (hleft : ∀ b, left = some b → left' = some b) (hright : ∀ b, right = some b → right' = some b)
    (h : shortOp kind left right = some b) : shortOp kind left' right' = some b := by
  cases left with
  | none => cases kind <;> cases h
  | some b' =>
    rw [hleft b' rfl]
    cases kind <;> cases b' <;>
      first
        | exact h
        | exact hright b h

theorem typed_eq_some_iff {result : Option (Val M.U)} :
    M.typed typ result = some value ↔ result = some value ∧ M.HasSort typ value := by
  unfold typed
  rw [Option.bind_eq_some_iff]
  constructor
  · rintro ⟨value', hresult, hvalue⟩
    split at hvalue
    · next hsort =>
        cases hvalue
        exact ⟨hresult, hsort⟩
    · cases hvalue
  · rintro ⟨hresult, hsort⟩
    exact ⟨value, hresult, if_pos hsort⟩

theorem bind_refines (h : Refines den den') {f : Val M.U → Option (Val M.U)}
    (hvalue : (den state env).bind f = some value) :
    (den' state env).bind f = some value := by
  obtain ⟨inner, hinner, hvalue⟩ := Option.bind_eq_some_iff.mp hvalue
  exact Option.bind_eq_some_iff.mpr ⟨inner, h _ _ _ hinner, hvalue⟩

theorem bind₂_refines {left left' right right' : M.Den} (hleft : Refines left left')
    (hright : Refines right right') {f : Val M.U → Val M.U → Option (Val M.U)}
    (hvalue : ((left state env).bind fun leftValue =>
      (right state env).bind fun rightValue => f leftValue rightValue) = some value) :
    ((left' state env).bind fun leftValue =>
      (right' state env).bind fun rightValue => f leftValue rightValue) = some value := by
  obtain ⟨leftValue, hleftValue, hvalue⟩ := Option.bind_eq_some_iff.mp hvalue
  rw [hleft _ _ _ hleftValue]
  exact bind_refines hright hvalue

/-- A node has the same value when its sub-expressions have. -/
theorem evalNode_refines (node : Expr) {parts parts' : List M.Den}
    (h : List.Forall₂ Refines parts parts') :
    Refines (M.evalNode node parts) (M.evalNode node parts') := by
  intro state env value hvalue
  cases node with
  | localVar => exact hvalue
  | const const =>
    cases const <;> exact hvalue
  | variant | field | addrOf =>
    rcases h with _ | ⟨hbase, _ | _⟩
    · cases hvalue
    · rw [evalNode, typed_eq_some_iff] at hvalue ⊢
      obtain ⟨hvalue, hsort⟩ := hvalue
      exact ⟨bind_refines hbase hvalue, hsort⟩
    · cases hvalue
  | snapApp =>
    rcases h with _ | ⟨hbase, _ | _⟩
    · cases hvalue
    · exact bind_refines hbase hvalue
    · cases hvalue
  | labelledOld label =>
    rcases h with _ | ⟨hbase, _ | _⟩
    · cases hvalue
    · obtain ⟨oldState, hold, hvalue⟩ := Option.bind_eq_some_iff.mp hvalue
      exact Option.bind_eq_some_iff.mpr ⟨oldState, hold, hbase _ _ _ hvalue⟩
    · cases hvalue
  | unaryOp kind =>
    rcases h with _ | ⟨harg, _ | _⟩
    · cases kind <;> cases hvalue
    · cases kind with
      | not =>
        obtain ⟨b, hb, hvalue⟩ := Option.map_eq_some_iff.mp hvalue
        exact Option.map_eq_some_iff.mpr ⟨b, asBool_refines harg hb, hvalue⟩
      | minus =>
        rw [evalNode] at hvalue ⊢
        split at hvalue
        · next n hn => rw [harg _ _ _ hn]; exact hvalue
        · cases hvalue
    · cases kind <;> cases hvalue
  | binOp kind =>
    rcases h with _ | ⟨hleft, _ | ⟨hright, _ | _⟩⟩
    · cases hvalue
    · cases hvalue
    · cases kind with
      | and | or | implies =>
        obtain ⟨b, hb, hvalue⟩ := Option.map_eq_some_iff.mp hvalue
        refine Option.map_eq_some_iff.mpr ⟨b, shortOp_refines ?_ ?_ hb, hvalue⟩
        · exact fun _ => asBool_refines hleft
        · exact fun _ => asBool_refines hright
      | _ => exact bind₂_refines hleft hright hvalue
    · cases hvalue
  | containerOp kind =>
    rcases h with _ | ⟨hleft, _ | ⟨hright, _ | _⟩⟩
    · cases hvalue
    · cases hvalue
    · exact bind₂_refines hleft hright hvalue
    · cases hvalue
  | seq typ | funcApp _ _ _ typ | domainFuncApp func =>
    rw [evalNode, typed_eq_some_iff] at hvalue ⊢
    obtain ⟨hvalue, hsort⟩ := hvalue
    refine ⟨?_, hsort⟩
    first
      | (obtain ⟨values, hvalues, hvalue⟩ := Option.map_eq_some_iff.mp hvalue
         exact Option.map_eq_some_iff.mpr ⟨values, evalAll_refines h hvalues, hvalue⟩)
      | (obtain ⟨values, hvalues, hvalue⟩ := Option.bind_eq_some_iff.mp hvalue
         exact Option.bind_eq_some_iff.mpr ⟨values, evalAll_refines h hvalues, hvalue⟩)
  | unfolding name args base perm index =>
    obtain ⟨values, hvalues, hvalue⟩ := Option.bind_eq_some_iff.mp hvalue
    obtain ⟨inner, hinner, hvalue⟩ := Option.bind_eq_some_iff.mp hvalue
    obtain ⟨body, hbody, hvalue⟩ := Option.bind_eq_some_iff.mp hvalue
    obtain ⟨body', hbody', hrefines⟩ := getLast?_of_forall₂ h hbody
    refine Option.bind_eq_some_iff.mpr ⟨values, evalAll_refines (dropLast_of_forall₂ h) hvalues, ?_⟩
    refine Option.bind_eq_some_iff.mpr ⟨inner, hinner, ?_⟩
    exact Option.bind_eq_some_iff.mpr ⟨body', hbody', hrefines _ _ _ hvalue⟩
  | cond =>
    rcases h with _ | ⟨hguard, _ | ⟨hthen, _ | ⟨helse, _ | _⟩⟩⟩
    · cases hvalue
    · cases hvalue
    · cases hvalue
    · obtain ⟨b, hb, hvalue⟩ := Option.bind_eq_some_iff.mp hvalue
      refine Option.bind_eq_some_iff.mpr ⟨b, asBool_refines hguard hb, ?_⟩
      cases b with
      | true => exact hthen _ _ _ hvalue
      | false => exact helse _ _ _ hvalue
    · cases hvalue
  | forAll vars =>
    rcases h with _ | ⟨hbody, _ | _⟩
    · cases hvalue
    · rw [evalNode] at hvalue ⊢
      refine quantify_congr ?_ (fun _ _ => asBool_refines hbody) hvalue
      intro f g hfg
      exact forall_congr' fun values => imp_congr_right fun hvalues => by
        rw [hfg values hvalues]
    · cases hvalue
  | exist vars =>
    rcases h with _ | ⟨hbody, _ | _⟩
    · cases hvalue
    · rw [evalNode] at hvalue ⊢
      refine quantify_congr ?_ (fun _ _ => asBool_refines hbody) hvalue
      intro f g hfg
      exact exists_congr fun values => and_congr_right fun hvalues => by
        rw [hfg values hvalues]
    · cases hvalue
  | letExpr var =>
    rcases h with _ | ⟨hexpr, _ | ⟨hbody, _ | _⟩⟩
    · cases hvalue
    · cases hvalue
    · obtain ⟨inner, hinner, hvalue⟩ := Option.bind_eq_some_iff.mp hvalue
      exact Option.bind_eq_some_iff.mpr ⟨inner, hexpr _ _ _ hinner, hbody _ _ _ hvalue⟩
    · cases hvalue
  | downcast =>
    rcases h with _ | ⟨hbase, _ | ⟨hplace, _ | _⟩⟩
    · cases hvalue
    · cases hvalue
    · exact hbase _ _ _ hvalue
    · cases hvalue
  | magicWand | predicateAccessPredicate | fieldAccessPredicate | inhaleExhale => cases hvalue

theorem hasSort_strictOp {kind : BinOpKind} {left right : Val M.U}
    (h : M.strictOp kind left right = some value) :
    match kind with
    | .add | .sub | .mul | .div | .mod => M.HasSort .int value
    | _ => M.HasSort .bool value := by
  cases kind with
  | eqCmp | neCmp =>
    cases h
    exact ⟨_, rfl⟩
  | and | or | implies => cases left <;> cases right <;> cases h
  | div | mod =>
    cases left <;> cases right <;> try cases h
    simp only [strictOp] at h
    split at h
    · cases h
    · cases h
      exact ⟨_, rfl⟩
  | _ =>
    cases left <;> cases right <;> cases h
    exact ⟨_, rfl⟩

/-- What comes out of the operators on sequences. -/
theorem hasSort_containerOp {kind : ContainerOpKind} {left right : Val M.U}
    {leftTyp rightTyp : Option Typ} (htyp : Expr.containerType kind leftTyp rightTyp = some typ)
    (hleft : ∀ typ, leftTyp = some typ → M.HasSort typ left)
    (hright : ∀ typ, rightTyp = some typ → M.HasSort typ right)
    (h : M.containerOp kind left right = some value) : M.HasSort typ value := by
  unfold Expr.containerType at htyp
  split at htyp
  · cases htyp
    obtain ⟨elems, rfl, helems⟩ := hleft _ rfl
    cases right <;> try cases h
    simp only [containerOp] at h
    split at h
    · exact helems value (List.mem_of_getElem? h)
    · cases h
  · split at htyp
    · next hsame =>
        specialize hleft _ htyp
        specialize hright _ (hsame ▸ htyp)
        cases left <;> cases right <;> cases h
        cases typ with
        | seq typ =>
          obtain ⟨elems, heq, helems⟩ := hleft
          obtain ⟨elems', heq', helems'⟩ := hright
          cases heq
          cases heq'
          refine ⟨_, rfl, fun elem helem => ?_⟩
          rcases List.mem_append.mp helem with helem | helem
          · exact helems elem helem
          · exact helems' elem helem
        | int | bool =>
          obtain ⟨_, heq⟩ := hleft
          cases heq
        | typedRef | domain | snapshot =>
          obtain ⟨_, _, heq⟩ := hleft
          cases heq
    · cases htyp
  · cases htyp
    cases left <;> cases right <;> cases h <;> exact ⟨_, rfl⟩
  · cases htyp

/-- A value is of the type of its expression. -/
theorem hasSort_of_eval (expr : Expr) (htyp : expr.staticType = some typ)
    (hvalue : M.eval expr state env = some value) : M.HasSort typ value := by
  induction expr using Expr.children_induction generalizing typ state env value with
  | h expr ih _ =>
  rw [Expr.staticType_eq] at htyp
  rw [eval_eq] at hvalue
  cases expr with
  | localVar | variant | field | addrOf | seq | funcApp | domainFuncApp =>
    cases htyp
    exact (typed_eq_some_iff.mp hvalue).2
  | const const =>
    cases const <;> cases htyp <;> first
      | (cases hvalue; exact ⟨_, rfl⟩)
      | exact (typed_eq_some_iff.mp hvalue).2
  | labelledOld label base =>
    obtain ⟨oldState, -, hvalue⟩ := Option.bind_eq_some_iff.mp hvalue
    exact ih base List.mem_cons_self htyp hvalue
  | downcast base => exact ih base List.mem_cons_self htyp hvalue
  | unaryOp kind =>
    cases kind with
    | not =>
      obtain ⟨b, -, rfl⟩ := Option.map_eq_some_iff.mp hvalue
      cases htyp
      exact ⟨_, rfl⟩
    | minus =>
      cases htyp
      simp only [Expr.children, List.map_cons, List.map_nil, evalNode] at hvalue
      split at hvalue
      · cases hvalue
        exact ⟨_, rfl⟩
      · cases hvalue
  | binOp kind left right =>
    have hstrict : ∀ value, ((M.eval left state env).bind fun leftValue =>
        (M.eval right state env).bind fun rightValue =>
          M.strictOp kind leftValue rightValue) = some value →
        ∃ leftValue rightValue, M.strictOp kind leftValue rightValue = some value := by
      intro value h
      obtain ⟨leftValue, -, h⟩ := Option.bind_eq_some_iff.mp h
      obtain ⟨rightValue, -, h⟩ := Option.bind_eq_some_iff.mp h
      exact ⟨leftValue, rightValue, h⟩
    cases kind with
    | and | or | implies =>
      obtain ⟨b, -, rfl⟩ := Option.map_eq_some_iff.mp hvalue
      cases htyp
      exact ⟨_, rfl⟩
    | _ =>
      obtain ⟨leftValue, rightValue, h⟩ := hstrict value hvalue
      cases htyp
      exact hasSort_strictOp h
  | containerOp kind left right =>
    obtain ⟨leftValue, hleft, hvalue⟩ := Option.bind_eq_some_iff.mp hvalue
    obtain ⟨rightValue, hright, hvalue⟩ := Option.bind_eq_some_iff.mp hvalue
    refine hasSort_containerOp htyp ?_ ?_ hvalue
    · exact fun _ h => ih left List.mem_cons_self h hleft
    · exact fun _ h => ih right (by simp [Expr.children]) h hright
  | unfolding name args base =>
    obtain ⟨values, -, hvalue⟩ := Option.bind_eq_some_iff.mp hvalue
    obtain ⟨inner, -, hvalue⟩ := Option.bind_eq_some_iff.mp hvalue
    simp only [Expr.children, List.map_append, List.map_cons, List.map_nil,
      List.getLast?_append, List.getLast?_singleton, Option.some_or,
      Option.bind_some, Expr.nodeType, List.getLastD_eq_getLast?, Option.getD_some] at hvalue htyp
    exact ih base (by simp [Expr.children]) htyp hvalue
  | cond guard thenExpr elseExpr =>
    obtain ⟨b, -, hvalue⟩ := Option.bind_eq_some_iff.mp hvalue
    simp only [Expr.children, List.map_cons, List.map_nil, Expr.nodeType] at htyp
    split at htyp
    · next hsame =>
        cases b with
        | true => exact ih thenExpr (by simp [Expr.children]) htyp hvalue
        | false => exact ih elseExpr (by simp [Expr.children]) (hsame ▸ htyp) hvalue
    · cases htyp
  | forAll | exist =>
    cases htyp
    simp only [Expr.children, List.map_cons, List.map_nil, evalNode, quantify]
      at hvalue
    split at hvalue <;> cases hvalue
    exact ⟨_, rfl⟩
  | letExpr var inner body =>
    obtain ⟨bound, -, hvalue⟩ := Option.bind_eq_some_iff.mp hvalue
    exact ih body (List.mem_cons_of_mem _ List.mem_cons_self) htyp hvalue
  | magicWand | predicateAccessPredicate | fieldAccessPredicate | inhaleExhale => cases hvalue
  | snapApp => cases htyp

end Model

end Prusti.Vir

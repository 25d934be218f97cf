/-
Computations of the fold-unfold pass that do not run out of fuel: a calculus,
and the parts of `obtain` that do not call it.
-/
import Prusti.FoldUnfold.UnfoldStmt
import Prusti.Vir.Children

namespace Prusti.FoldUnfold

open Prusti.Vir Prusti.Lib

/-- A computation that does not run out of fuel; it may panic or fail. -/
def Halts {α : Type} (run : Except Exn α) : Prop := run ≠ .error .outOfFuel

section Calculus

variable {α β : Type}

theorem Halts.ok (value : α) : Halts (.ok value) := nofun

theorem Halts.pure (value : α) : Halts (Pure.pure value) := Halts.ok value

theorem Halts.panic : Halts (.error .panic : Except Exn α) := nofun

theorem Halts.error (error : FoldUnfoldError) :
    Halts (.error (.error error) : Except Exn α) := nofun

theorem Halts.bind_of {first : Except Exn α} {next : α → Except Exn β}
    (hfirst : Halts first) (hnext : ∀ value, first = .ok value →
      Halts (next value)) : Halts (first >>= next) := by
  cases first with
  | ok value => exact hnext value rfl
  | error exn =>
    intro h
    cases h
    exact hfirst rfl

theorem Halts.bind {first : Except Exn α} {next : α → Except Exn β}
    (hfirst : Halts first) (hnext : ∀ value, Halts (next value)) :
    Halts (first >>= next) :=
  hfirst.bind_of fun value _ => hnext value

theorem halts_orPanic (value? : Option α) : Halts (orPanic value?) := by
  cases value? with
  | none => exact Halts.panic
  | some value => exact Halts.ok value

theorem halts_assert (condition : Bool) : Halts (assert condition) := by
  cases condition with
  | false => exact Halts.panic
  | true => exact Halts.ok ()

theorem halts_debugAssert (env : Env) (condition : Bool) : Halts (env.debugAssert condition) :=
  halts_assert _

theorem halts_mapM {items : List α} {run : α → Except Exn β}
    (h : ∀ item ∈ items, Halts (run item)) : Halts (items.mapM run) := by
  induction items with
  | nil => exact Halts.pure []
  | cons item items ih =>
    rw [List.mapM_cons]
    apply Halts.bind (h item List.mem_cons_self)
    intro first
    apply Halts.bind (ih fun other hother => h other (List.mem_cons_of_mem _ hother))
    intro rest
    exact Halts.pure (first :: rest)

theorem halts_foldlM {items : List α} {run : β → α → Except Exn β}
    (h : ∀ value item, Halts (run value item)) (start : β) :
    Halts (items.foldlM run start) := by
  induction items generalizing start with
  | nil => exact Halts.pure start
  | cons item items ih =>
    rw [List.foldlM_cons]
    exact (h start item).bind ih

end Calculus

/-! The parts of `obtain` that do not call it halt. -/

section Parts

variable {env : Env}

theorem halts_insertAmount (map : HashMap Expr PermAmount) (place : Expr)
    (perm : PermAmount) : Halts (insertAmount map place perm) := by
  unfold insertAmount
  split
  · next old _ =>
      apply Halts.bind
      · unfold PermAmount.addE
        split
        · exact Halts.ok _
        · exact Halts.error _
      · intro sum
        exact (halts_assert _).bind fun _ => Halts.pure _
  · exact Halts.pure _

theorem halts_removeAmount (map : HashMap Expr PermAmount) (place : Expr)
    (perm : PermAmount) {missing : Exn} (hmissing : missing ≠ .outOfFuel) :
    Halts (removeAmount map place perm missing) := by
  unfold removeAmount
  split
  · split
    · exact Halts.pure _
    · apply Halts.bind
      · unfold PermAmount.subE
        split
        · exact Halts.ok _
        · exact Halts.error _
      · exact fun _ => Halts.pure _
  · intro h
    cases h
    exact hmissing rfl

theorem halts_insertPerm (state : State) (perm : Perm) : Halts (state.insertPerm perm) := by
  cases perm with
  | acc place amount | pred place amount =>
    exact (halts_insertAmount _ _ _).bind fun _ => Halts.pure _

theorem halts_removePerm (state : State) (perm : Perm) : Halts (state.removePerm perm) := by
  cases perm with
  | acc place amount =>
    have hmissing : Exn.panic ≠ .outOfFuel := nofun
    exact (halts_removeAmount _ _ _ hmissing).bind fun _ => Halts.pure _
  | pred place amount =>
    have hmissing : Exn.error (.failedToRemovePred place) ≠ .outOfFuel := nofun
    exact (halts_removeAmount _ _ _ hmissing).bind fun _ => Halts.pure _

theorem halts_permDifference (left right : HashSet Perm) : Halts (permDifference left right) := by
  have hplaces : ∀ left right, Halts (placePermDifference left right) := by
    intro left right
    unfold placePermDifference
    split
    · exact Halts.ok _
    · exact Halts.panic
  unfold permDifference
  exact (hplaces _ _).bind fun _ => (hplaces _ _).bind fun _ => Halts.pure _

theorem halts_getFootprints {debug : Bool} {bodyFootprint : String → Option EnumVariantIndex →
      Except Exn (Expr × HashSet Perm)} {elems : List Expr}
    (h : ∀ elem ∈ elems, Halts (getFootprint debug bodyFootprint elem)) :
    Halts (getFootprints debug bodyFootprint elems) := by
  induction elems with
  | nil => exact Halts.pure _
  | cons elem elems ih =>
    rw [getFootprints]
    apply Halts.bind (h elem List.mem_cons_self)
    intro first
    apply Halts.bind (ih fun other hother => h other (List.mem_cons_of_mem _ hother))
    exact fun _ => Halts.pure _

theorem halts_getFootprint {debug : Bool}
    {bodyFootprint : String → Option EnumVariantIndex → Except Exn (Expr × HashSet Perm)}
    (hbody : ∀ name variant, Halts (bodyFootprint name variant))
    (expr : Expr) : Halts (getFootprint debug bodyFootprint expr) := by
  induction expr using Expr.children_induction with
  | h expr ih _ =>
    cases expr with
    | unfolding name args base perm variant pos =>
      have hbase := ih base (List.mem_append_right _ (List.mem_singleton_self _))
      match args with
      | [] | _ :: _ :: _ => exact Halts.panic
      | [place] =>
        apply (halts_assert _).bind
        intro _
        apply (halts_orPanic _).bind
        intro predicateName
        apply (hbody predicateName variant).bind
        intro ⟨selfPlace, footprint⟩
        apply Halts.bind
        · apply halts_mapM
          intro generic _
          exact (halts_orPanic _).bind fun _ => halts_orPanic _
        · intro placesInPred
          exact hbase.bind fun _ => halts_permDifference _ _
    | unaryOp op arg pos => exact ih arg List.mem_cons_self
    | snapApp arg pos => exact ih arg List.mem_cons_self
    | downcast base enumPlace fld => exact ih base List.mem_cons_self
    | binOp op left right pos | containerOp op left right pos =>
      have hleft := ih left List.mem_cons_self
      have hright := ih right (List.mem_cons_of_mem _ List.mem_cons_self)
      rw [getFootprint]
      exact hleft.bind fun _ => hright.bind fun _ => Halts.pure _
    | seq typ elems pos => exact halts_getFootprints ih
    | cond guard thenExpr elseExpr pos =>
      have hguard := ih guard List.mem_cons_self
      have hthen := ih thenExpr (List.mem_cons_of_mem _ List.mem_cons_self)
      have helse := ih elseExpr (List.mem_cons_of_mem _ (List.mem_cons_of_mem _ List.mem_cons_self))
      rw [getFootprint]
      exact hguard.bind fun _ => hthen.bind fun _ => helse.bind fun _ =>
        Halts.pure _
    | forAll vars triggers body pos | exist vars triggers body pos =>
      have hbody := ih body List.mem_cons_self
      rw [getFootprint]
      exact (halts_assert _).bind fun _ => hbody.bind fun _ =>
        halts_permDifference _ _
    | predicateAccessPredicate name arg perm pos =>
      rw [getFootprint]
      split
      · split <;> exact Halts.pure _
      · exact Halts.pure _
    | fieldAccessPredicate place perm pos =>
      rw [getFootprint]
      exact (halts_assert _).bind fun _ => (halts_assert _).bind fun _ =>
        Halts.pure _
    | letExpr var expr body pos => exact Halts.panic
    | _ => exact Halts.pure _

theorem halts_getBodyFootprint (debug : Bool) (predicate : Predicate)
    (variant : Option EnumVariantIndex) :
    Halts (Predicate.getBodyFootprint debug predicate variant) := by
  cases predicate with
  | struct predicate =>
    apply (halts_assert _).bind
    intro _
    unfold StructPredicate.getBodyFootprint
    split
    · exact halts_getFootprint (fun _ _ => Halts.panic) _
    · exact Halts.pure _
  | enum predicate =>
    cases variant with
    | none => exact Halts.pure _
    | some variant =>
      apply Halts.bind _ fun _ => Halts.pure _
      exact (halts_orPanic _).bind fun _ => Halts.pure _
  | bodyless name this => exact Halts.pure _

theorem halts_placesInPred (order : IterOrder) (predicate : Predicate)
    (variant : Option EnumVariantIndex) (place : Expr) :
    Halts (placesInPred env order predicate variant place) := by
  apply (halts_getBodyFootprint env.debug predicate variant).bind
  intro footprint
  apply halts_mapM
  intro generic _
  exact halts_orPanic _

theorem halts_findVariant (enumPlace variantPlace : Expr) :
    Halts (findVariant enumPlace variantPlace) := by
  induction variantPlace using Expr.parent_induction with
  | step variantPlace ih =>
    cases variantPlace with
    | variant base index pos =>
      rw [findVariant]
      split
      · exact halts_orPanic _
      · exact ih base rfl
    | field base fld pos =>
      rw [findVariant]
      split
      · exact Halts.pure _
      · exact ih base rfl
    | addrOf base typ pos =>
      rw [findVariant]
      split
      · exact Halts.pure _
      · exact ih base rfl
    | _ => exact Halts.panic

theorem halts_findUnfoldedVariant (order : IterOrder) (state : State) (enumPlace : Expr) :
    Halts (findUnfoldedVariant env order state enumPlace) := by
  apply (halts_debugAssert env _).bind
  intro _
  apply Halts.bind
  · apply Halts.bind _ fun _ => Halts.pure _
    exact halts_mapM fun variantPlace _ => halts_findVariant enumPlace variantPlace
  · intro variants
    exact (halts_debugAssert env _).bind fun _ => Halts.pure _

theorem halts_insertAllPerms (state : State) (perms : List Perm) :
    Halts (state.insertAllPerms perms) :=
  halts_foldlM halts_insertPerm state

theorem halts_removeAllPerms (state : State) (perms : List Perm) :
    Halts (state.removeAllPerms perms) :=
  halts_foldlM halts_removePerm state

theorem halts_unfold (order : IterOrder) (state : State) (predPlace : Expr)
    (permAmount : PermAmount) (variant : Option EnumVariantIndex) :
    Halts (unfold env order state predPlace permAmount variant) := by
  apply (halts_assert _).bind
  intro _
  apply (halts_assert _).bind
  intro _
  apply (halts_orPanic _).bind
  intro predicateName
  apply Halts.bind
  · unfold Env.getPredicate
    split
    · exact Halts.ok _
    · exact Halts.error _
  · intro predicate
    apply (halts_placesInPred order predicate variant predPlace).bind
    intro places
    apply (halts_mapM fun _ _ => halts_orPanic _).bind
    intro scaled
    apply (halts_removePerm state (.pred predPlace permAmount)).bind
    intro state
    exact (halts_insertAllPerms state scaled).bind fun _ => Halts.pure _

theorem halts_minAmount (amounts : List PermAmount) : Halts (minAmount amounts) :=
  (halts_orPanic _).bind fun _ => Halts.pure _

theorem halts_foldAmount (state : State) (places : List Perm) : Halts (foldAmount state places) :=
  (halts_mapM fun _ _ => halts_minAmount _).bind fun _ => halts_minAmount _

theorem halts_foldPlace (state : State) (place : Expr) (permAmount : PermAmount)
    (places : List Perm) : Halts (foldPlace env state place permAmount places) := by
  apply (halts_mapM fun _ _ => halts_orPanic _).bind
  intro scaled
  apply (halts_debugAssert env _).bind
  intro _
  apply (halts_debugAssert env _).bind
  intro _
  apply (halts_debugAssert env _).bind
  intro _
  apply (halts_removeAllPerms state scaled).bind
  intro state
  exact halts_insertPerm state (.pred place permAmount)

end Parts

/-! The loop over the requests of a fold. -/

section Each

variable {obtain : IterOrder → State → Perm → Except Exn (State × ObtainResult)}
  {P : State → Prop} {reqs : List Perm}

/-- What every request keeps is kept by the loop. -/
theorem obtainEach_keeps
    (hkeeps : ∀ req ∈ reqs, ∀ {order state state' result}, P state →
      obtain order state req = .ok (state', result) → P state')
    {order : IterOrder} {state state' : State} {result : ObtainResult} (hstate : P state)
    (h : obtainEach obtain order state reqs = .ok (state', result)) :
    P state' := by
  induction reqs generalizing order state result with
  | nil =>
    cases h
    exact hstate
  | cons req reqs ih =>
    unfold obtainEach at h
    rw [bind_eq_ok_iff] at h
    obtain ⟨⟨middle, first⟩, hfirst, h⟩ := h
    have hmiddle := hkeeps req List.mem_cons_self hstate hfirst
    cases first with
    | failure missing =>
      cases h
      exact hmiddle
    | success actions =>
      simp only [bind_eq_ok_iff] at h
      obtain ⟨⟨last, rest⟩, hrest, h⟩ := h
      have hlast : last = state' := by
        cases rest <;> cases h <;> rfl
      subst hlast
      exact ih (fun other hother => hkeeps other (List.mem_cons_of_mem _ hother)) hmiddle hrest

theorem halts_obtainEach
    (hkeeps : ∀ req ∈ reqs, ∀ {order state state' result}, P state →
      obtain order state req = .ok (state', result) → P state')
    (hhalts : ∀ req ∈ reqs, ∀ order state, P state → Halts (obtain order state req))
    (order : IterOrder) {state : State} (hstate : P state) :
    Halts (obtainEach obtain order state reqs) := by
  induction reqs generalizing order state with
  | nil => exact Halts.pure _
  | cons req reqs ih =>
    unfold obtainEach
    apply (hhalts req List.mem_cons_self _ _ hstate).bind_of
    rintro ⟨middle, first⟩ hfirst
    have hmiddle := hkeeps req List.mem_cons_self hstate hfirst
    cases first with
    | failure missing => exact Halts.pure _
    | success actions =>
      apply Halts.bind
      · exact ih (fun other hother => hkeeps other (List.mem_cons_of_mem _ hother))
          (fun other hother => hhalts other (List.mem_cons_of_mem _ hother))
          _ hmiddle
      · rintro ⟨last, rest⟩
        cases rest <;> exact Halts.pure _

end Each

end Prusti.FoldUnfold

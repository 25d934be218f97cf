/-
The meaning of actions as Viper statements.  The state of the algorithm is
read as a permission mask, for an arbitrary value of the `read` fraction, and
every action trades permissions of that mask.
-/
import Prusti.Lib.Lists
import Prusti.Lib.Mask
import Prusti.FoldUnfold.PathCtxt

namespace Prusti.FoldUnfold

open Prusti.Vir Prusti.Lib

variable {α β : Type} {f : α → Except Exn β} {results : List β} {state state' : State} {perm : Perm}
  {perms : List Perm}

/-- A field location or a predicate instance. -/
abbrev Resource := Kind × Expr

/-- The value of an amount that may be missing. -/
def amountValue (ρ : ℚ) : Option PermAmount → ℚ
  | some amount => amount.value ρ
  | none => 0

/-- The permission mask that a state stands for. -/
def State.mask (ρ : ℚ) (state : State) : Mask Resource ℚ := fun resource =>
  amountValue ρ ((state.held resource.1).get? resource.2)

/-- One permission as a mask. -/
def Perm.mask (ρ : ℚ) (perm : Perm) : Mask Resource ℚ :=
  Mask.single (perm.kind, perm.getPlace) (perm.getPermAmount.value ρ)

/-- The sum of a list of permissions. -/
def permsMask (ρ : ℚ) (perms : List Perm) : Mask Resource ℚ :=
  Mask.total (perms.map fun perm =>
    ((perm.kind, perm.getPlace), perm.getPermAmount.value ρ))

/-- The instantiated body of a predicate, with the amount of the action in
place of the amounts of the footprint. -/
def scaledBody (env : Env) (name : String) (place : Expr)
    (permAmount : PermAmount) (variant : Option EnumVariantIndex) :
    Except Exn (List Perm) := do
  let predicate ← orPanic (env.predicates name)
  let places ← placesInPred env .identity predicate variant place
  pure (places.map fun perm => perm.withAmount permAmount)

/-- The Viper meaning of an action: `fold` exhales the body and inhales the
predicate, `unfold` does the opposite, and a dropped permission is exhaled. -/
def Action.exchange (env : Env) (ρ : ℚ) : Action → Except Exn (Exchange Resource ℚ)
  | .fold name [place] permAmount variant _ => do
    let body ← scaledBody env name place permAmount variant
    pure ⟨permsMask ρ body, (Perm.pred place permAmount).mask ρ⟩
  | .unfold name [place] permAmount variant => do
    let body ← scaledBody env name place permAmount variant
    pure ⟨(Perm.pred place permAmount).mask ρ, permsMask ρ body⟩
  | .drop perm _ => pure ⟨perm.mask ρ, 0⟩
  | _ => .error .panic

/-- Replaying a list of actions leads from one mask to another. -/
def Replays (env : Env) (ρ : ℚ) (first : Mask Resource ℚ)
    (actions : List Action) (last : Mask Resource ℚ) : Prop :=
  ∃ exchanges, actions.mapM (Action.exchange env ρ) = .ok exchanges ∧
    Exchange.Run first exchanges last

theorem exists_of_mem_mapM {list : List α} (h : list.mapM f = .ok results) {result : β}
    (hmem : result ∈ results) :
    ∃ elem ∈ list, f elem = .ok result :=
  exists_of_forall₂_mem_right (mapM_eq_ok_iff.mp h) hmem

theorem mapM_append_ok {left right : List α} {results' : List β} (hleft : left.mapM f = .ok results)
    (hright : right.mapM f = .ok results') :
    (left ++ right).mapM f = .ok (results ++ results') := by
  rw [mapM_eq_ok_iff] at hleft hright ⊢
  exact List.rel_append hleft hright

/-- A map over a permutation returns a permutation. -/
theorem mapM_perm {left right : List α} (hperm : left.Perm right) (h : left.mapM f = .ok results) :
    ∃ results', right.mapM f = .ok results' ∧ results.Perm results' := by
  rw [mapM_eq_ok_iff] at h
  obtain ⟨results', hrel, hperm'⟩ := List.perm_comp_forall₂ hperm.symm h
  exact ⟨results', mapM_eq_ok_iff.mpr hrel, hperm'.symm⟩

section Replays

variable {env : Env} {ρ : ℚ}

theorem Replays.nil (mask : Mask Resource ℚ) : Replays env ρ mask [] mask :=
  ⟨[], rfl, Exchange.Run.nil mask⟩

theorem Replays.append {first middle last : Mask Resource ℚ}
    {left right : List Action} (hleft : Replays env ρ first left middle)
    (hright : Replays env ρ middle right last) :
    Replays env ρ first (left ++ right) last := by
  obtain ⟨exchanges, hmap, hrun⟩ := hleft
  obtain ⟨exchanges', hmap', hrun'⟩ := hright
  exact ⟨exchanges ++ exchanges', mapM_append_ok hmap hmap', hrun.append hrun'⟩

theorem Replays.single {mask : Mask Resource ℚ} {action : Action}
    {exchange : Exchange Resource ℚ} (haction : action.exchange env ρ = .ok exchange)
    (henabled : exchange.Enabled mask) :
    Replays env ρ mask [action] (exchange.fire mask) := by
  refine ⟨[exchange], ?_, Exchange.Run.single henabled⟩
  rw [mapM_eq_ok_iff]
  exact List.Forall₂.cons haction List.Forall₂.nil

end Replays

section Amounts

variable {ρ : ℚ}

theorem amountValue_nonneg (h0 : 0 < ρ) (h1 : ρ < 1)
    (amount : Option PermAmount) : 0 ≤ amountValue ρ amount := by
  cases amount with
  | none => exact le_refl 0
  | some amount => exact (amount.value_pos h0 h1).le

theorem State.mask_nonneg (h0 : 0 < ρ) (h1 : ρ < 1) (state : State) : 0 ≤ state.mask ρ :=
  fun _ => amountValue_nonneg h0 h1 _

theorem insertAmount_value {map map' : HashMap Expr PermAmount}
    {place : Expr} {perm : PermAmount} (h : insertAmount map place perm = .ok map') (other : Expr) :
    amountValue ρ (map'.get? other) =
      amountValue ρ (map.get? other) +
        if place == other then perm.value ρ else 0 := by
  unfold insertAmount at h
  by_cases heq : (place == other) = true
  · rw [← HashMap.get?_congr map heq, if_pos heq]
    split at h
    · next old hold =>
        simp only [bind_eq_ok_iff, addE_eq_ok_iff] at h
        obtain ⟨sum, hsum, _, _, hmap⟩ := h
        cases hmap
        rw [HashMap.get?_insert, if_pos heq, hold]
        exact PermAmount.value_add hsum
    · next hold =>
        cases h
        rw [HashMap.get?_insert, if_pos heq, hold]
        exact (zero_add _).symm
  · rw [if_neg heq, add_zero]
    split at h
    · simp only [bind_eq_ok_iff] at h
      obtain ⟨_, _, _, _, hmap⟩ := h
      cases hmap
      rw [HashMap.get?_insert, if_neg heq]
    · cases h
      rw [HashMap.get?_insert, if_neg heq]

theorem removeAmount_value {map map' : HashMap Expr PermAmount}
    {place : Expr} {perm : PermAmount} {missing : Exn}
    (h : removeAmount map place perm missing = .ok map') (other : Expr) :
    amountValue ρ (map'.get? other) = amountValue ρ (map.get? other) -
        if place == other then perm.value ρ else 0 := by
  unfold removeAmount at h
  split at h
  · next old hold =>
      by_cases hperm : (old == perm) = true
      · rw [if_pos hperm] at h
        cases h
        rw [beq_iff_eq] at hperm
        subst hperm
        rw [HashMap.get?_erase]
        by_cases heq : (place == other) = true
        · rw [if_pos heq, if_pos heq, ← HashMap.get?_congr map heq, hold]
          exact (sub_self _).symm
        · rw [if_neg heq, if_neg heq, sub_zero]
      · rw [if_neg hperm] at h
        simp only [bind_eq_ok_iff, subE_eq_ok_iff] at h
        obtain ⟨difference, hsub, hmap⟩ := h
        cases hmap
        rw [HashMap.get?_insert]
        by_cases heq : (place == other) = true
        · rw [if_pos heq, if_pos heq, ← HashMap.get?_congr map heq, hold]
          exact PermAmount.value_sub hsub
        · rw [if_neg heq, if_neg heq, sub_zero]
  · cases h

theorem Perm.mask_apply (perm : Perm) (kind : Kind) (place : Expr) :
    perm.mask ρ (kind, place) =
      if perm.kind = kind ∧ (perm.getPlace == place) = true
      then perm.getPermAmount.value ρ else 0 := by
  change (if ((perm.kind, perm.getPlace) == (kind, place)) = true
    then _ else _) = _
  congr 1
  change ((perm.kind == kind && perm.getPlace == place) = true) = _
  rw [Bool.and_eq_true, beq_iff_eq]

theorem State.insertPerm_mask (h : state.insertPerm perm = .ok state') :
    state'.mask ρ = state.mask ρ + perm.mask ρ := by
  obtain ⟨map, hmap, rfl⟩ := State.insertPerm_eq_ok_iff.mp h
  funext ⟨kind, other⟩
  rw [Pi.add_apply, Perm.mask_apply, State.mask, State.mask]
  by_cases hkind : perm.kind = kind
  · subst hkind
    simp [insertAmount_value hmap]
  · simp [State.held_setHeld_of_ne state map hkind, hkind]

theorem State.removePerm_mask (h : state.removePerm perm = .ok state') :
    state'.mask ρ = state.mask ρ - perm.mask ρ := by
  obtain ⟨map, _, hmap, rfl⟩ := State.removePerm_eq_ok h
  funext ⟨kind, other⟩
  rw [Pi.sub_apply, Perm.mask_apply, State.mask, State.mask]
  by_cases hkind : perm.kind = kind
  · subst hkind
    simp [removeAmount_value hmap]
  · simp [State.held_setHeld_of_ne state map hkind, hkind]

theorem permsMask_cons (perm : Perm) (perms : List Perm) :
    permsMask ρ (perm :: perms) = perm.mask ρ + permsMask ρ perms := rfl

theorem permsMask_perm {perms' : List Perm} (h : perms.Perm perms') :
    permsMask ρ perms = permsMask ρ perms' :=
  Mask.total_perm (h.map _)

theorem State.insertAllPerms_cons_eq_ok_iff :
    state.insertAllPerms (perm :: perms) = .ok state' ↔
      ∃ middle, state.insertPerm perm = .ok middle ∧ middle.insertAllPerms perms = .ok state' :=
  bind_eq_ok_iff _ _ _

theorem State.removeAllPerms_cons_eq_ok_iff :
    state.removeAllPerms (perm :: perms) = .ok state' ↔
      ∃ middle, state.removePerm perm = .ok middle ∧ middle.removeAllPerms perms = .ok state' :=
  bind_eq_ok_iff _ _ _

theorem State.insertAllPerms_mask (h : state.insertAllPerms perms = .ok state') :
    state'.mask ρ = state.mask ρ + permsMask ρ perms := by
  induction perms generalizing state with
  | nil =>
    cases h
    exact (add_zero _).symm
  | cons perm perms ih =>
    obtain ⟨middle, hperm, hperms⟩ := State.insertAllPerms_cons_eq_ok_iff.mp h
    rw [ih hperms, insertPerm_mask hperm, permsMask_cons, add_assoc]

theorem State.removeAllPerms_mask (h : state.removeAllPerms perms = .ok state') :
    state'.mask ρ = state.mask ρ - permsMask ρ perms := by
  induction perms generalizing state with
  | nil =>
    cases h
    exact (sub_zero _).symm
  | cons perm perms ih =>
    obtain ⟨middle, hperm, hperms⟩ := State.removeAllPerms_cons_eq_ok_iff.mp h
    rw [ih hperms, removePerm_mask hperm, permsMask_cons, sub_sub]

end Amounts

end Prusti.FoldUnfold

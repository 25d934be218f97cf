/-
What a successful `obtain` does: its actions, replayed as Viper statements,
lead to its final state, and the final state holds the required permission.
-/
import Prusti.FoldUnfold.Replay

namespace Prusti.FoldUnfold

open Prusti.Vir Prusti.Lib

variable {order : IterOrder} {predicate : Predicate} {variant : Option EnumVariantIndex}
  {place other : Expr} {places perms : List Perm} {perm req : Perm} {amount : PermAmount}
  {state state' : State} {action : Action} {fuel : Nat} {actions : List Action}
  {map map' : HashMap Expr PermAmount} {kind : Kind}

section

variable {env : Env} {ρ : ℚ}

/-- The order of iteration only permutes the permissions of a body. -/
theorem placesInPred_perm (h : placesInPred env order predicate variant place = .ok places)
    (order' : IterOrder) :
    ∃ places', placesInPred env order' predicate variant place = .ok places' ∧
      places.Perm places' := by
  unfold placesInPred at h ⊢
  rw [bind_eq_ok_iff] at h
  obtain ⟨footprint, hfootprint, hmap⟩ := h
  have hperm := (order.iter_perm 0 footprint.keys).trans (order'.iter_perm 0 footprint.keys).symm
  obtain ⟨places', hmap', hplaces⟩ := mapM_perm hperm hmap
  refine ⟨places', ?_, hplaces⟩
  rw [bind_eq_ok_iff]
  exact ⟨footprint, hfootprint, hmap'⟩

theorem updatePermAmount_eq_some {perm' : Perm} (h : perm.updatePermAmount amount = some perm') :
    perm' = perm.withAmount amount ∧ amount.isValidForSpecs = true := by
  unfold Perm.updatePermAmount at h
  split at h
  · next hvalid =>
      cases h
      rw [Bool.and_eq_true] at hvalid
      exact ⟨rfl, hvalid.2⟩
  · cases h

/-- Scaling a body sets all its amounts. -/
theorem updatePermAmount_mapM {scaled : List Perm}
    (h : (places.mapM fun perm => orPanic (perm.updatePermAmount amount)) = .ok scaled) :
    scaled = places.map fun perm => perm.withAmount amount := by
  rw [mapM_eq_ok_iff] at h
  induction h with
  | nil => rfl
  | cons hperm _ ih =>
    rw [orPanic_eq_ok_iff] at hperm
    rw [List.map_cons, ← ih, (updatePermAmount_eq_some hperm).1]

theorem scaledBody_of_placesInPred {name : String} (amount : PermAmount)
    (hpredicate : env.predicates name = some predicate)
    (hplaces : placesInPred env order predicate variant place = .ok places) :
    ∃ body, scaledBody env name place amount variant = .ok body ∧
      (places.map fun perm => perm.withAmount amount).Perm body := by
  obtain ⟨places', hplaces', hperm⟩ := placesInPred_perm hplaces .identity
  refine ⟨places'.map fun perm => perm.withAmount amount, ?_, hperm.map _⟩
  unfold scaledBody
  rw [bind_eq_ok_iff]
  refine ⟨predicate, (orPanic_eq_ok_iff _ _).mpr hpredicate, ?_⟩
  rw [bind_eq_ok_iff]
  exact ⟨places', hplaces', rfl⟩

theorem getPredicate_eq_ok_iff (env : Env) (name : String) (predicate : Predicate) :
    env.getPredicate name = .ok predicate ↔ env.predicates name = some predicate := by
  unfold Env.getPredicate
  cases env.predicates name <;> simp

/-- What a simulated unfold does. -/
theorem unfold_eq_ok (h : unfold env order state place amount variant = .ok (state', action)) :
    ∃ name predicate places middle,
      place.typedRefName = some name ∧
        env.predicates name = some predicate ∧
        placesInPred env order predicate variant place = .ok places ∧
        amount.isValidForSpecs = true ∧
        state.removePred place amount = .ok middle ∧
        middle.insertAllPerms (places.map fun perm =>
          perm.withAmount amount) = .ok state' ∧
        action = .unfold name [place] amount variant := by
  unfold FoldUnfold.unfold at h
  simp only [bind_eq_ok_iff, orPanic_eq_ok_iff, assert_eq_ok_iff] at h
  obtain ⟨_, _, _, hvalid, name, hname, predicate, hpredicate, places, hplaces,
    scaled, hscaled, middle, hremove, last, hinsert, hpure⟩ := h
  cases hpure
  rw [updatePermAmount_mapM hscaled] at hinsert
  exact ⟨name, predicate, places, middle, hname,
    (getPredicate_eq_ok_iff env name predicate).mp hpredicate, hplaces, hvalid,
    hremove, hinsert, rfl⟩

/-- A simulated unfold is an enabled Viper unfold. -/
theorem unfold_replays (h0 : 0 < ρ) (h1 : ρ < 1)
    (h : unfold env order state place amount variant = .ok (state', action)) :
    Replays env ρ (state.mask ρ) [action] (state'.mask ρ) := by
  obtain ⟨name, predicate, places, middle, _, hpredicate, hplaces, _, hremove,
    hinsert, rfl⟩ := unfold_eq_ok h
  obtain ⟨body, hbody, hperm⟩ := scaledBody_of_placesInPred amount hpredicate hplaces
  have hmiddle : middle.mask ρ = state.mask ρ - (Perm.pred place amount).mask ρ :=
    State.removePerm_mask (show state.removePerm (.pred place amount) = _ from hremove)
  let exchange : Exchange Resource ℚ := ⟨(Perm.pred place amount).mask ρ, permsMask ρ body⟩
  have haction : (Action.unfold name [place] amount variant).exchange env ρ = .ok exchange := by
    change (scaledBody env name place amount variant >>= _) = _
    rw [bind_eq_ok_iff]
    exact ⟨body, hbody, rfl⟩
  have henabled : exchange.Enabled (state.mask ρ) := by
    apply Exchange.enabled_of_nonneg
    change 0 ≤ state.mask ρ - (Perm.pred place amount).mask ρ
    rw [← hmiddle]
    exact middle.mask_nonneg h0 h1
  have hfire : exchange.fire (state.mask ρ) = state'.mask ρ := by
    rw [State.insertAllPerms_mask hinsert, hmiddle, permsMask_perm hperm]
    rfl
  rw [← hfire]
  exact Replays.single haction henabled

/-- What a simulated fold does. -/
theorem foldPlace_eq_ok (h : foldPlace env state place amount places = .ok state') :
    ∃ middle,
      state.removeAllPerms (places.map fun perm => perm.withAmount amount) = .ok middle ∧
        middle.insertPred place amount = .ok state' := by
  unfold foldPlace Env.debugAssert at h
  simp only [bind_eq_ok_iff] at h
  obtain ⟨scaled, hscaled, _, _, _, _, _, _, middle, hremove, hinsert⟩ := h
  rw [updatePermAmount_mapM hscaled] at hremove
  exact ⟨middle, hremove, hinsert⟩

/-- A simulated fold is an enabled Viper fold. -/
theorem foldPlace_replays (h0 : 0 < ρ) (h1 : ρ < 1) {name : String} (pos : Position)
    (hpredicate : env.predicates name = some predicate)
    (hplaces : placesInPred env order predicate variant place = .ok places)
    (h : foldPlace env state place amount places = .ok state') :
    Replays env ρ (state.mask ρ) [.fold name [place] amount variant pos] (state'.mask ρ) := by
  obtain ⟨middle, hremove, hinsert⟩ := foldPlace_eq_ok h
  obtain ⟨body, hbody, hperm⟩ := scaledBody_of_placesInPred amount hpredicate hplaces
  have hmiddle : middle.mask ρ = state.mask ρ - permsMask ρ body := by
    rw [State.removeAllPerms_mask hremove, permsMask_perm hperm]
  let exchange : Exchange Resource ℚ := ⟨permsMask ρ body, (Perm.pred place amount).mask ρ⟩
  have haction : (Action.fold name [place] amount variant pos).exchange env ρ = .ok exchange := by
    change (scaledBody env name place amount variant >>= _) = _
    rw [bind_eq_ok_iff]
    exact ⟨body, hbody, rfl⟩
  have henabled : exchange.Enabled (state.mask ρ) := by
    apply Exchange.enabled_of_nonneg
    change 0 ≤ state.mask ρ - permsMask ρ body
    rw [← hmiddle]
    exact middle.mask_nonneg h0 h1
  have hfire : exchange.fire (state.mask ρ) = state'.mask ρ := by
    have hlast : state'.mask ρ = middle.mask ρ + (Perm.pred place amount).mask ρ :=
      State.insertPerm_mask (show middle.insertPerm (.pred place amount) = _ from hinsert)
    rw [hlast, hmiddle]
    rfl
  rw [← hfire]
  exact Replays.single haction henabled

/-- The predicate that a fold looks at, and the permissions of its body. -/
structure FoldSetup (env : Env) (order : IterOrder) (state : State)
    (req : Perm) (name : String) (predicate : Predicate)
    (variant : Option EnumVariantIndex) (places : List Perm) : Prop where
  refName : req.typedRefName = some name
  found : env.predicates name = some predicate
  unfolded : findUnfoldedVariant env (order.call 0) state req.getPlace = .ok variant
  body : placesInPred env (order.call 1) predicate variant req.getPlace = .ok places

/-- The requests that a fold makes, one for each permission of the body. -/
def foldRequests (req : Perm) (places : List Perm) : List Perm :=
  places.map fun perm => perm.setDefaultPos req.getPlace.pos

/-- The three ways in which a fold returns. -/
theorem obtainFold_cases {obtain : IterOrder → State → Perm → Except Exn (State × ObtainResult)}
    {result : ObtainResult} (h : obtainFold env obtain order state req = .ok (state', result)) :
    ∃ name predicate variant places,
      FoldSetup env order state req name predicate variant places ∧
        ((canFold state predicate req.getPlace places = false ∧
            state' = state ∧ result = .failure req) ∨
          (canFold state predicate req.getPlace places = true ∧
            ∃ amount, foldAmount state places = .ok amount ∧
              ((∃ missing, obtainEach obtain (order.call 2) state
                    (foldRequests req places) = .ok (state', .failure missing)
                    ∧ result = .failure missing) ∨
                ∃ actions middle, obtainEach obtain (order.call 2) state
                    (foldRequests req places) = .ok (middle, .success actions)
                  ∧ foldPlace env middle req.getPlace amount places = .ok state' ∧
                  result = .success (actions ++ [.fold name [req.getPlace]
                    amount variant req.getPlace.pos])))) := by
  unfold obtainFold at h
  simp only [bind_eq_ok_iff, orPanic_eq_ok_iff] at h
  obtain ⟨name, hname, predicate, hpredicate, variant, hvariant, places, hplaces, h⟩ := h
  refine ⟨name, predicate, variant, places, ⟨hname, hpredicate, hvariant, hplaces⟩, ?_⟩
  by_cases hcan : canFold state predicate req.getPlace places = true
  · rw [if_pos hcan] at h
    simp only [bind_eq_ok_iff] at h
    obtain ⟨amount, hamount, ⟨middle, each⟩, heach, h⟩ := h
    refine Or.inr ⟨hcan, amount, hamount, ?_⟩
    cases each with
    | failure missing =>
      cases h
      exact Or.inl ⟨missing, heach, rfl⟩
    | success actions =>
      simp only [bind_eq_ok_iff] at h
      obtain ⟨last, hfold, hpure⟩ := h
      cases hpure
      exact Or.inr ⟨actions, middle, heach, hfold, rfl⟩
  · rw [if_neg hcan] at h
    cases h
    exact Or.inl ⟨Bool.eq_false_iff.mpr hcan, rfl, rfl⟩

/-- Nothing has to be done for a request. -/
def isSatisfied (state : State) (req : Perm) : Bool :=
  state.containsPerm req || (req.isAcc && req.isLocal)

/-- The ways in which `obtain` returns. -/
theorem obtain_cases {result : ObtainResult}
    (h : obtain env (fuel + 1) order state req = .ok (state', result)) :
    (isSatisfied state req = true ∧ state' = state ∧ result = .success []) ∨
      (isSatisfied state req = false ∧
        ((∃ existing amount variant middle action actions,
            prefixPred order state req = some existing ∧
            state.pred.get? existing = some amount ∧
            amount.ge req.getPermAmount = true ∧
            findVariant existing req.getPlace = .ok variant ∧
            unfold env (order.call 0) state existing amount variant = .ok (middle, action) ∧
            obtain env fuel (order.call 1) middle req = .ok (state', .success actions) ∧
            result = .success (action :: actions)) ∨
          (prefixPred order state req = none ∧ req.isPred = true ∧
            obtainFold env (obtain env fuel) (order.call 2) state req = .ok (state', result)) ∨
          (prefixPred order state req = none ∧ req.isPred = false ∧
            state' = state ∧ result = .failure req))) := by
  unfold FoldUnfold.obtain at h
  by_cases hsat : isSatisfied state req = true
  · refine Or.inl ⟨hsat, ?_⟩
    unfold isSatisfied at hsat
    rw [Bool.or_eq_true] at hsat
    by_cases hcontains : state.containsPerm req = true
    · rw [if_pos hcontains] at h
      cases h
      exact ⟨rfl, rfl⟩
    · rw [if_neg hcontains, if_pos (hsat.resolve_left hcontains)] at h
      cases h
      exact ⟨rfl, rfl⟩
  · rw [Bool.not_eq_true] at hsat
    refine Or.inr ⟨hsat, ?_⟩
    unfold isSatisfied at hsat
    rw [Bool.or_eq_false_iff] at hsat
    rw [if_neg (by simp [hsat.1]), if_neg (by simp [hsat.2])] at h
    split at h
    · next existing hexisting =>
        simp only [bind_eq_ok_iff, orPanic_eq_ok_iff, assert_eq_ok_iff] at h
        obtain ⟨amount, hamount, _, hge, variant, hvariant,
          ⟨middle, action⟩, hunfold, ⟨last, result'⟩, hobtain, actions, hactions, hpure⟩ := h
        cases hpure
        cases result' with
        | failure missing => cases hactions
        | success actions' =>
          cases hactions
          exact Or.inl ⟨existing, amount, variant, middle, action, actions,
            hexisting, hamount, hge, hvariant, hunfold, hobtain, rfl⟩
    · next hnone =>
        by_cases hpred : req.isPred = true
        · rw [if_pos hpred] at h
          exact Or.inr (Or.inl ⟨hnone, hpred, h⟩)
        · rw [if_neg hpred] at h
          cases h
          exact Or.inr (Or.inr ⟨hnone, by simpa using hpred, rfl, rfl⟩)

/-- A run of requests that succeeds replays if every request does. -/
theorem obtainEach_replays {obtain : IterOrder → State → Perm → Except Exn (State × ObtainResult)}
    (hobtain : ∀ {order state req state' actions},
      obtain order state req = .ok (state', .success actions) →
        Replays env ρ (state.mask ρ) actions (state'.mask ρ)) {reqs : List Perm}
    (h : obtainEach obtain order state reqs = .ok (state', .success actions)) :
    Replays env ρ (state.mask ρ) actions (state'.mask ρ) := by
  induction reqs generalizing order state actions with
  | nil =>
    cases h
    exact Replays.nil _
  | cons req reqs ih =>
    unfold obtainEach at h
    rw [bind_eq_ok_iff] at h
    obtain ⟨⟨middle, result⟩, hfirst, h⟩ := h
    cases result with
    | failure missing => cases h
    | success first =>
      simp only [bind_eq_ok_iff] at h
      obtain ⟨⟨last, result⟩, hrest, h⟩ := h
      cases result with
      | failure missing => cases h
      | success rest =>
        cases h
        exact (hobtain hfirst).append (ih hrest)

/-- The actions of a successful `obtain` lead to its final state. -/
theorem obtain_replays (h0 : 0 < ρ) (h1 : ρ < 1)
    (h : obtain env fuel order state req = .ok (state', .success actions)) :
    Replays env ρ (state.mask ρ) actions (state'.mask ρ) := by
  induction fuel generalizing order state state' req actions with
  | zero => cases h
  | succ fuel ih =>
    rcases obtain_cases h with ⟨_, rfl, hresult⟩ | ⟨_, hunfold | hfold | hfail⟩
    · cases hresult
      exact Replays.nil _
    · obtain ⟨existing, amount, variant, middle, action, actions', _, _, _, _,
        hunfold, hrest, hresult⟩ := hunfold
      cases hresult
      exact (unfold_replays h0 h1 hunfold).append (ih hrest)
    · obtain ⟨_, _, hfold⟩ := hfold
      obtain ⟨name, predicate, variant, places, hsetup, hcases⟩ := obtainFold_cases hfold
      rcases hcases with ⟨_, _, hresult⟩ | ⟨_, amount, _, hcases⟩
      · cases hresult
      · rcases hcases with ⟨_, _, hresult⟩ |
          ⟨actions', middle, heach, hplace, hresult⟩
        · cases hresult
        · cases hresult
          exact (obtainEach_replays ih heach).append
            (foldPlace_replays h0 h1 _ hsetup.found hsetup.body hplace)
    · cases hfail.2.2.2

end

section Held

variable {env : Env}

theorem State.containsPerm_eq (state : State) (perm : Perm) :
    state.containsPerm perm = (state.held perm.kind).contains perm.getPlace := by
  cases perm <;> rfl

theorem State.containsPerm_iff (state : State) (perm : Perm) :
    state.containsPerm perm = true ↔
      ∃ amount, (state.held perm.kind).get? perm.getPlace = some amount := by
  rw [State.containsPerm_eq, HashMap.contains_iff]

/-- An insertion leaves everything else as it is. -/
theorem insertAmount_get?_of_ne {perm : PermAmount} (h : insertAmount map place perm = .ok map')
    (hne : (place == other) = false) : map'.get? other = map.get? other := by
  unfold insertAmount at h
  split at h
  · simp only [bind_eq_ok_iff] at h
    obtain ⟨_, _, _, _, hmap⟩ := h
    cases hmap
    rw [HashMap.get?_insert, if_neg (by simp [hne])]
  · cases h
    rw [HashMap.get?_insert, if_neg (by simp [hne])]

/-- What an insertion leaves at its own place. -/
theorem insertAmount_get?_self {perm : PermAmount} (h : insertAmount map place perm = .ok map')
    (heq : (place == other) = true) :
    (map.get? other = none ∧ map'.get? other = some perm) ∨
      ∃ old sum, map.get? other = some old ∧ old.add perm = some sum ∧
        map'.get? other = some sum := by
  unfold insertAmount at h
  rw [← HashMap.get?_congr map heq]
  split at h
  · next old hold =>
      simp only [bind_eq_ok_iff, addE_eq_ok_iff] at h
      obtain ⟨sum, hsum, _, _, hmap⟩ := h
      cases hmap
      rw [HashMap.get?_insert, if_pos heq]
      exact Or.inr ⟨old, sum, hold, hsum, rfl⟩
  · next hold =>
      cases h
      rw [HashMap.get?_insert, if_pos heq]
      exact Or.inl ⟨hold, rfl⟩

theorem removeAmount_get?_of_ne {perm : PermAmount} {missing : Exn}
    (h : removeAmount map place perm missing = .ok map') (hne : (place == other) = false) :
    map'.get? other = map.get? other := by
  unfold removeAmount at h
  split at h
  · next old _ =>
    by_cases hperm : (old == perm) = true
    · rw [if_pos hperm] at h
      cases h
      rw [HashMap.get?_erase, if_neg (by simp [hne])]
    · rw [if_neg hperm] at h
      simp only [bind_eq_ok_iff] at h
      obtain ⟨_, _, hmap⟩ := h
      cases hmap
      rw [HashMap.get?_insert, if_neg (by simp [hne])]
  · cases h

/-- Changing one map at one place. -/
theorem State.setHeld_get? (state : State) {other : Kind}
    (h : map.get? place = (state.held kind).get? place) :
    ((state.setHeld kind map).held other).get? place = (state.held other).get? place := by
  by_cases hkind : kind = other
  · subst hkind
    rw [State.held_setHeld, h]
  · rw [State.held_setHeld_of_ne state map hkind]

theorem State.insertPerm_get?_of_ne (h : state.insertPerm perm = .ok state')
    (hne : (perm.getPlace == place) = false) (kind : Kind) :
    (state'.held kind).get? place = (state.held kind).get? place := by
  obtain ⟨map, hmap, rfl⟩ := State.insertPerm_eq_ok_iff.mp h
  exact state.setHeld_get? (insertAmount_get?_of_ne hmap hne)

theorem State.removePerm_get?_of_ne (h : state.removePerm perm = .ok state')
    (hne : (perm.getPlace == place) = false) (kind : Kind) :
    (state'.held kind).get? place = (state.held kind).get? place := by
  obtain ⟨map, _, hmap, rfl⟩ := State.removePerm_eq_ok h
  exact state.setHeld_get? (removeAmount_get?_of_ne hmap hne)

theorem State.insertAllPerms_get?_of_ne (hne : ∀ perm ∈ perms, (perm.getPlace == place) = false)
    (h : state.insertAllPerms perms = .ok state') (kind : Kind) :
    (state'.held kind).get? place = (state.held kind).get? place := by
  induction perms generalizing state with
  | nil =>
    cases h
    rfl
  | cons perm perms ih =>
    obtain ⟨middle, hperm, hperms⟩ := State.insertAllPerms_cons_eq_ok_iff.mp h
    rw [ih (fun other hother => hne other (List.mem_cons_of_mem perm hother)) hperms]
    exact State.insertPerm_get?_of_ne hperm (hne perm List.mem_cons_self) kind

theorem State.removeAllPerms_get?_of_ne (hne : ∀ perm ∈ perms, (perm.getPlace == place) = false)
    (h : state.removeAllPerms perms = .ok state') (kind : Kind) :
    (state'.held kind).get? place = (state.held kind).get? place := by
  induction perms generalizing state with
  | nil =>
    cases h
    rfl
  | cons perm perms ih =>
    obtain ⟨middle, hperm, hperms⟩ := State.removeAllPerms_cons_eq_ok_iff.mp h
    rw [ih (fun other hother => hne other (List.mem_cons_of_mem perm hother)) hperms]
    exact State.removePerm_get?_of_ne hperm (hne perm List.mem_cons_self) kind

/-- Permissions of one amount do not add up: each is inserted at most once. -/
theorem State.insertAllPerms_get? (hamount : ∀ perm ∈ perms, perm.getPermAmount = amount)
    (h : state.insertAllPerms perms = .ok state')
    (hbefore : (state.held kind).get? place = none ∨ (state.held kind).get? place = some amount) :
    (state'.held kind).get? place = none ∨ (state'.held kind).get? place = some amount := by
  induction perms generalizing state with
  | nil =>
    cases h
    exact hbefore
  | cons perm perms ih =>
    obtain ⟨middle, hperm, hperms⟩ := State.insertAllPerms_cons_eq_ok_iff.mp h
    refine ih (fun other hother =>
      hamount other (List.mem_cons_of_mem perm hother)) hperms ?_
    have hthis := hamount perm List.mem_cons_self
    obtain ⟨map, hmap, rfl⟩ := State.insertPerm_eq_ok_iff.mp hperm
    by_cases hkind : perm.kind = kind
    · subst hkind
      rw [State.held_setHeld]
      by_cases heq : (perm.getPlace == place) = true
      · rcases insertAmount_get?_self hmap heq with ⟨_, hnew⟩ |
          ⟨old, sum, hold, hsum, _⟩
        · exact Or.inr (hthis ▸ hnew)
        · rcases hbefore with hnone | hsome
          · rw [hold] at hnone
            cases hnone
          · rw [hold] at hsome
            cases hsome
            rw [hthis, PermAmount.add_self] at hsum
            cases hsum
      · rw [insertAmount_get?_of_ne hmap (by simpa using heq)]
        exact hbefore
    · rw [State.held_setHeld_of_ne state map hkind]
      exact hbefore

/-- After an unfold, a permission that was not there before has the amount of
the unfold. -/
theorem unfold_get? {existing : Expr}
    (h : unfold env order state existing amount variant = .ok (state', action))
    (hbefore : (state.held kind).get? place = none) :
    (state'.held kind).get? place = none ∨ (state'.held kind).get? place = some amount := by
  obtain ⟨name, predicate, places, middle, _, _, _, _, hremove, hinsert, _⟩ := unfold_eq_ok h
  refine State.insertAllPerms_get? ?_ hinsert (Or.inl ?_)
  · intro perm hperm
    obtain ⟨other, _, rfl⟩ := List.mem_map.mp hperm
    exact Perm.getPermAmount_withAmount other amount
  · unfold State.removePred at hremove
    rw [bind_eq_ok_iff] at hremove
    obtain ⟨pred, hremove, hpure⟩ := hremove
    cases hpure
    cases kind with
    | acc => exact hbefore
    | pred =>
      change pred.get? place = none
      change state.pred.get? place = none at hbefore
      by_cases heq : (existing == place) = true
      · rw [← HashMap.get?_congr _ heq] at hbefore
        unfold removeAmount at hremove
        rw [hbefore] at hremove
        cases hremove
      · rw [removeAmount_get?_of_ne hremove (by simpa using heq)]
        exact hbefore

/-- What a successful `obtain` leaves at the required place: the amount is at
least the required one, unless the permission was there before or was folded. -/
theorem obtain_held (h : obtain env fuel order state req = .ok (state', .success actions))
    (hrefl : (req.getPlace == req.getPlace) = true) :
    (req.isAcc = true ∧ req.isLocal = true) ∨
      ∃ amount, (state'.held req.kind).get? req.getPlace = some amount ∧
        (amount.ge req.getPermAmount = true ∨
          state.containsPerm req = true ∨
          ∃ name amount' variant pos,
            Action.fold name [req.getPlace] amount' variant pos ∈ actions) := by
  induction fuel generalizing order state actions with
  | zero => cases h
  | succ fuel ih =>
    rcases obtain_cases h with ⟨hsat, rfl, _⟩ |
      ⟨hsat, hunfold | hfold | hfail⟩
    · unfold isSatisfied at hsat
      rw [Bool.or_eq_true, Bool.and_eq_true] at hsat
      rcases hsat with hcontains | hlocal
      · obtain ⟨amount, hamount⟩ := (State.containsPerm_iff _ _).mp hcontains
        exact Or.inr ⟨amount, hamount, Or.inr (Or.inl hcontains)⟩
      · exact Or.inl hlocal
    · obtain ⟨existing, amount, variant, middle, action, actions', _, _, hge,
        _, hunfold, hrest, hresult⟩ := hunfold
      cases hresult
      have hnone : (state.held req.kind).get? req.getPlace = none := by
        unfold isSatisfied at hsat
        rw [Bool.or_eq_false_iff, State.containsPerm_eq] at hsat
        exact (HashMap.contains_eq_false_iff _ _).mp hsat.1
      rcases ih hrest with hlocal | ⟨final, hfinal, hcases⟩
      · exact Or.inl hlocal
      · refine Or.inr ⟨final, hfinal, ?_⟩
        rcases hcases with hge' | hcontains | hfolded
        · exact Or.inl hge'
        · -- The recursive call stops at once, so the amount is that of the
          -- unfold.
          have hsame : state' = middle := by
            cases fuel with
            | zero => cases hrest
            | succ fuel =>
              rcases obtain_cases hrest with ⟨_, hstate, _⟩ | ⟨hsat', _⟩
              · exact hstate
              · unfold isSatisfied at hsat'
                simp [hcontains] at hsat'
          subst hsame
          rcases unfold_get? hunfold hnone with hnone' | hsome
          · rw [hfinal] at hnone'
            cases hnone'
          · rw [hfinal] at hsome
            cases hsome
            exact Or.inl hge
        · obtain ⟨name, amount', variant', pos, hmem⟩ := hfolded
          exact Or.inr (Or.inr ⟨name, amount', variant', pos, List.mem_cons_of_mem action hmem⟩)
    · obtain ⟨_, hpred, hfold⟩ := hfold
      obtain ⟨name, predicate, variant, places, _, hcases⟩ := obtainFold_cases hfold
      rcases hcases with ⟨_, _, hresult⟩ | ⟨_, amount, _, hcases⟩
      · cases hresult
      · rcases hcases with ⟨_, _, hresult⟩ |
          ⟨actions', middle, _, hplace, hresult⟩
        · cases hresult
        · cases hresult
          obtain ⟨last, _, hinsert⟩ := foldPlace_eq_ok hplace
          unfold State.insertPred at hinsert
          rw [bind_eq_ok_iff] at hinsert
          obtain ⟨map, hinsert, hpure⟩ := hinsert
          cases hpure
          rw [(Perm.isPred_iff_kind req).mp hpred]
          have hfolded : Action.fold name [req.getPlace] amount variant
              req.getPlace.pos ∈ actions' ++ [.fold name [req.getPlace] amount
                variant req.getPlace.pos] := by
            simp
          rcases insertAmount_get?_self hinsert hrefl with ⟨_, hnew⟩ |
            ⟨_, sum, _, _, hnew⟩
          · exact Or.inr ⟨amount, hnew, Or.inr (Or.inr ⟨name, amount, variant, _, hfolded⟩)⟩
          · exact Or.inr ⟨sum, hnew, Or.inr (Or.inr ⟨name, amount, variant, _, hfolded⟩)⟩
    · cases hfail.2.2.2

end Held

/-- The actions of a successful `obtain` are enabled one after the other from
the mask of the first state and yield the mask of the final one, whatever the
`read` fraction is; and the final state has the required permission.  Its
amount is not compared with the required one if it was there before, or if it
is the result of a fold. -/
theorem obtain_success_faithful {env : Env} {fuel : Nat} {order : IterOrder}
    {state state' : State} {req : Perm} {actions : List Action}
    (h : obtain env fuel order state req = .ok (state', .success actions)) :
    (∀ ρ : ℚ, 0 < ρ → ρ < 1 →
        Replays env ρ (state.mask ρ) actions (state'.mask ρ)) ∧
      ((req.getPlace == req.getPlace) = true →
        (req.isAcc = true ∧ req.isLocal = true) ∨
          ∃ amount, (state'.held req.kind).get? req.getPlace = some amount ∧
            (amount.ge req.getPermAmount = true ∨
              state.containsPerm req = true ∨
              ∃ name amount' variant pos,
                Action.fold name [req.getPlace] amount' variant pos ∈ actions)) :=
  ⟨fun _ h0 h1 => obtain_replays h0 h1 h, obtain_held h⟩

namespace Witness

/-- `struct T { f: i32, g: i32 }` -/
def fieldF : Vir.Field := ⟨"f", .typedRef "i32"⟩

def fieldG : Vir.Field := ⟨"g", .typedRef "i32"⟩

def valInt : Vir.Field := ⟨"val_int", .int⟩

def table : String → Option Predicate
  | "T" => Predicate.newStruct (.typedRef "T") [fieldF, fieldG]
  | "i32" => some (Predicate.newPrimitiveValue (.typedRef "i32") valInt none false)
  | _ => none

def env : Env := ⟨table, true⟩

def x : Vir.Expr := .ofLocal ⟨"x", .typedRef "T"⟩

def xf : Vir.Expr := x.mkField fieldF

def xg : Vir.Expr := x.mkField fieldG

/-- The variable `x` is fully folded. -/
def folded : State :=
  State.new (HashMap.ofList [(x, .write)]) (HashMap.ofList [(x, .write)]) HashMap.empty

/-- A shared borrow left only a `read` permission on `x.f`. -/
def readOnly : State :=
  State.new (HashMap.ofList [(x, .write), (xf, .read)]) HashMap.empty HashMap.empty

/-- Obtaining `acc(x.f)` unfolds `x`. -/
theorem obtain_success_faithful_unfold :
    ∃ state' action,
      obtain env 2 .identity folded (.acc xf .write) = .ok (state', .success [action]) ∧
        (∀ ρ : ℚ, 0 < ρ → ρ < 1 → Replays env ρ (folded.mask ρ) [action] (state'.mask ρ)) ∧
        ∃ amount, state'.acc.get? xf = some amount := by
  have hobtain : ∃ state' action,
      obtain env 2 .identity folded (.acc xf .write) =
        .ok (state', .success [action]) := ⟨_, _, rfl⟩
  obtain ⟨state', action, hobtain⟩ := hobtain
  have hfaithful := obtain_success_faithful hobtain
  refine ⟨state', action, hobtain, hfaithful.1, ?_⟩
  rcases hfaithful.2 (by decide) with ⟨_, hlocal⟩ | ⟨amount, hamount, _⟩
  · exact absurd hlocal (by decide)
  · exact ⟨amount, hamount⟩

/-- The amount is ignored: a request for `write` succeeds on `read`. -/
theorem obtain_amount_too_small :
    ¬ ∀ (env : Env) (fuel : Nat) (order : IterOrder) (state state' : State)
        (req : Perm) (actions : List Action),
        state.checkConsistency = true →
        obtain env fuel order state req = .ok (state', .success actions) →
          (req.isAcc = true ∧ req.isLocal = true) ∨
            ∃ amount, (state'.held req.kind).get? req.getPlace = some amount ∧
              ∀ ρ : ℚ, 0 < ρ → ρ < 1 → req.getPermAmount.value ρ ≤ amount.value ρ := by
  intro hclaim
  have hresult := hclaim env 1 .identity readOnly readOnly (.acc xf .write) [] (by decide) rfl
  rcases hresult with ⟨_, hlocal⟩ | ⟨amount, hamount, hle⟩
  · exact absurd hlocal (by decide)
  · have hread : amount = .read := by
      have hheld : (readOnly.held .acc).get? xf = some .read := rfl
      exact Option.some.inj (hamount.symm.trans hheld)
    have hhalf := hle (1 / 2) (by norm_num) (by norm_num)
    rw [hread] at hhalf
    norm_num [Perm.getPermAmount, PermAmount.value] at hhalf

end Witness

end Prusti.FoldUnfold

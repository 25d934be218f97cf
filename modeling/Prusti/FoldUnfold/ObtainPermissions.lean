/-
Obtaining a list of permissions: no request takes away what an earlier one has obtained.
-/
import Prusti.FoldUnfold.Framing
import Prusti.FoldUnfold.ObtainFailure

namespace Prusti.FoldUnfold

open Prusti.Vir Prusti.Lib

/-- A request that neither unfolds the permission nor folds it away. -/
structure Perm.Spares (req : Perm) (kind : Kind) (place : Expr) : Prop where
  above : kind = .pred → req.hasProperPrefix place = false
  same : kind = .pred → req.isPred = true → (req.getPlace == place) = false
  below : req.isPred = true → place.hasProperPrefix req.getPlace = false

section Spares

variable {req other : Perm} {kind : Kind} {place : Expr}

theorem Perm.Spares.ne_child (h : req.Spares kind place) (hpred : req.isPred = true)
    (hchild : other.getPlace.IsChildOf req.getPlace) : (other.getPlace == place) = false := by
  rw [Bool.eq_false_iff]
  intro heq
  have hbelow := h.below hpred
  obtain ⟨parent, -, hparent⟩ := id hchild
  rw [← Expr.hasProperPrefix_congr_left heq, hchild.hasProperPrefix_eq,
    Expr.hasPrefix_of_beq (BEq.trans (BEq.symm hparent) hparent)] at hbelow
  cases hbelow

/-- The requests of a fold spare what the fold spares. -/
theorem Perm.Spares.child (h : req.Spares kind place) (hpred : req.isPred = true)
    (hchild : other.getPlace.IsChildOf req.getPlace) : other.Spares kind place where
  above := by
    intro hkind
    have habove := h.above hkind
    rw [Perm.hasProperPrefix, Expr.hasProperPrefix, h.same hkind hpred] at habove
    rw [Perm.hasProperPrefix, hchild.hasProperPrefix_eq]
    exact habove
  same := fun _ _ => h.ne_child hpred hchild
  below := by
    intro _
    have hbelow := h.below hpred
    rw [Bool.eq_false_iff] at hbelow ⊢
    exact fun hprefix => hbelow
      (Expr.hasProperPrefix_of_hasProperPrefix_of_hasPrefix hprefix hchild.hasPrefix_parent)

end Spares

/-- The permission is held, with whatever amount. -/
def State.Holds (state : State) (kind : Kind) (place : Expr) : Prop :=
  ∃ share, (kind, place, share) ∈ state.atoms

variable {env : Env} {kind : Kind} {place : Expr} {order : IterOrder} {state state' : State}

variable {actions : List Action}

theorem State.holds_iff :
    state.Holds kind place ↔ ∃ amount, (state.held kind).get? place = some amount := by
  constructor
  · rintro ⟨share, amount, hamount, -⟩
    exact ⟨amount, hamount⟩
  · rintro ⟨amount, hamount⟩
    obtain ⟨share, hshare⟩ := amount.exists_has
    exact ⟨share, amount, hamount, hshare⟩

/-- A successful request keeps what it spares, if the ones that it makes do. -/
theorem State.Holds.obtainEach
    {obtain : IterOrder → State → Perm → Except Exn (State × ObtainResult)}
    (hobtain : ∀ {order state req state' actions}, state.Holds kind place →
      req.Spares kind place → obtain order state req = .ok (state', .success actions) →
        state'.Holds kind place) {reqs : List Perm} (h : state.Holds kind place)
    (hspares : ∀ req ∈ reqs, req.Spares kind place)
    (heach : FoldUnfold.obtainEach obtain order state reqs = .ok (state', .success actions)) :
    state'.Holds kind place := by
  induction reqs generalizing order state actions with
  | nil =>
    cases heach
    exact h
  | cons req reqs ih =>
    rw [List.forall_mem_cons] at hspares
    unfold FoldUnfold.obtainEach at heach
    rw [bind_eq_ok_iff] at heach
    obtain ⟨⟨middle, result⟩, hfirst, heach⟩ := heach
    cases result with
    | failure missing => cases heach
    | success first =>
      simp only [bind_eq_ok_iff] at heach
      obtain ⟨⟨last, result⟩, hrest, heach⟩ := heach
      cases result with
      | failure missing => cases heach
      | success rest =>
        cases heach
        exact ih (hobtain h hspares.1 hfirst) hspares.2 hrest

/-- A successful request keeps what it spares. -/
theorem State.Holds.obtain (henv : env.ChildFootprints) {fuel : Nat} {req : Perm}
    (h : state.Holds kind place) (hspares : req.Spares kind place)
    (hobtain : FoldUnfold.obtain env fuel order state req = .ok (state', .success actions)) :
    state'.Holds kind place := by
  induction fuel generalizing order state state' req actions with
  | zero => cases hobtain
  | succ fuel ih =>
    rcases obtain_cases hobtain with ⟨_, rfl, _⟩ | ⟨_, hunfold | hfold | hfail⟩
    · exact h
    · obtain ⟨existing, amount, variant, middle, action, rest, hprefix, -, -, -, hunfold,
        hrest, hresult⟩ := hunfold
      obtain ⟨name, predicate, places, between, -, -, -, -, hremove, hinsert, -⟩ :=
        unfold_eq_ok hunfold
      cases hresult
      refine ih ?_ hspares hrest
      obtain ⟨share, hshare⟩ := h
      refine ⟨share, (State.atoms_insertAllPerms hinsert).2.1 ▸ .inl ?_⟩
      have hremove' : state.removePerm (.pred existing amount) = .ok between := hremove
      rw [(State.atoms_removePerm hremove').2.1]
      refine ⟨hshare, ?_⟩
      rintro ⟨hkind, heq, -⟩
      have hfound : req.hasProperPrefix existing = true := List.find?_some hprefix
      have habove := hspares.above hkind.symm
      rw [Perm.hasProperPrefix, ← Expr.hasProperPrefix_congr_right _ heq] at habove
      exact absurd hfound (Bool.eq_false_iff.mp habove)
    · obtain ⟨_, hpred, hfold⟩ := hfold
      obtain ⟨name, predicate, variant, places, hsetup, hcases⟩ := obtainFold_cases hfold
      rcases hcases with ⟨_, _, hresult⟩ | ⟨hcan, amount, _, hcases⟩
      · cases hresult
      · rcases hcases with ⟨_, _, hresult⟩ | ⟨rest, middle, heach, hplace, _⟩
        · cases hresult
        · obtain ⟨hplaces, hchildren⟩ := foldRequests_isChildOf henv hsetup hcan
          obtain ⟨between, hremove, hinsert⟩ := foldPlace_eq_ok hplace
          have hmiddle := h.obtainEach (fun h hspares => ih h hspares)
            (fun perm hperm => hspares.child hpred (hchildren perm hperm)) heach
          have hsame := State.removeAllPerms_get?_of_ne (fun perm hperm => by
            obtain ⟨inner, hinner, rfl⟩ := List.mem_map.mp hperm
            rw [Perm.getPlace_withAmount]
            exact hspares.ne_child hpred (hplaces inner hinner)) hremove kind
          rw [State.holds_iff, ← hsame, ← State.holds_iff] at hmiddle
          have hinsert' : between.insertPerm (.pred req.getPlace amount) = .ok state' := hinsert
          exact hmiddle.imp fun share hshare => (State.atoms_insertPerm hinsert').2.1 ▸ .inl hshare
    · cases hfail.2.2.2

/-- No place has both the permission and the other place below it. -/
def Perm.Apart (perm : Perm) (place : Expr) : Prop :=
  ∀ above, perm.getPlace.hasPrefix above = true → place.hasPrefix above = false

theorem unfold_sameOutside (henv : env.ChildFootprints) {existing : Expr} {amount : PermAmount}
    {variant : Option EnumVariantIndex} {action : Action} (hself : (existing == existing) = true)
    (h : unfold env order state existing amount variant = .ok (state', action)) :
    SameOutside existing state state' := by
  intro kind place hplace
  obtain ⟨_, _, _, between, -, hpredicate, hplaces, -, hremove, hinsert, -⟩ := unfold_eq_ok h
  have hne : ∀ {below : Expr}, below.hasPrefix existing = true → (below == place) = false := by
    intro below hbelow
    rw [Bool.eq_false_iff]
    intro heq
    rw [Expr.hasPrefix_congr_left heq, hplace] at hbelow
    cases hbelow
  rw [State.insertAllPerms_get?_of_ne (List.forall_mem_map.mpr fun perm hperm => ?_) hinsert kind]
  · have hremove' : state.removePerm (.pred existing amount) = .ok between := hremove
    exact State.removePerm_get?_of_ne hremove' (hne (Expr.hasPrefix_of_beq hself)) kind
  · rw [Perm.getPlace_withAmount]
    exact hne (placesInPred_isChildOf henv hpredicate hplaces hself perm hperm).hasPrefix_parent

theorem obtain_get?_of_apart (henv : env.ChildFootprints) {fuel : Nat} {req : Perm}
    (hself : (req.getPlace == req.getPlace) = true) (hapart : req.Apart place)
    (h : obtain env fuel order state req = .ok (state', .success actions)) :
    (state'.held kind).get? place = (state.held kind).get? place := by
  induction fuel generalizing order state actions with
  | zero => cases h
  | succ fuel ih =>
    rcases obtain_cases h with ⟨-, rfl, -⟩ | ⟨-, hunfold | ⟨hnone, -⟩ | ⟨-, -, rfl, -⟩⟩
    · rfl
    · obtain ⟨_, _, _, _, _, _, hprefix, -, -, -, hunfold, hrest, -⟩ := hunfold
      have habove := Expr.hasPrefix_of_hasProperPrefix (List.find?_some hprefix)
      rw [ih hrest]
      exact unfold_sameOutside henv (Expr.beq_self_of_hasPrefix habove) hunfold _ _
        (hapart _ habove)
    · exact obtain_sameOutside henv h ((prefixPred_eq_none_iff order state req).mp hnone) _ _
        (hapart _ (Expr.hasPrefix_of_beq hself))
    · rfl

section All

variable {fuel : Nat} {permissions perms : List Perm} {perm req : Perm} {actions : List Action}

/-- What solving the conflicts leaves does not take away from each other. -/
theorem spares_of_solveConflicts (hreq : req ∈ solveConflicts permissions)
    (hperm : perm ∈ solveConflicts permissions) (hunsat : isSatisfied state req = false)
    (hheld : state.Holds perm.kind perm.getPlace) : req.Spares perm.kind perm.getPlace := by
  simp only [solveConflicts, List.mem_filter, Bool.not_eq_true', List.any_eq_false,
    Bool.and_eq_true, not_and, Bool.not_eq_true] at hreq hperm
  refine ⟨fun hkind => hreq.2 perm hperm.1 ((Perm.isPred_iff_kind perm).mpr hkind),
    fun hkind hpred => ?_, fun hpred => hperm.2 req hreq.1 hpred⟩
  rw [Bool.eq_false_iff]
  intro heq
  obtain ⟨amount, hamount⟩ := State.holds_iff.mp hheld
  rw [hkind, ← HashMap.get?_congr _ heq, ← (Perm.isPred_iff_kind req).mp hpred] at hamount
  rw [isSatisfied, (State.containsPerm_iff state req).mpr ⟨amount, hamount⟩] at hunsat
  cases hunsat

theorem obtainAll_cons
    (h : obtainAll env fuel order state (perm :: perms) = .ok (state', actions)) :
    ∃ middle first rest, obtain env fuel (order.call 0) state perm = .ok (middle, .success first) ∧
      obtainAll env fuel (order.call 1) middle perms = .ok (state', rest) ∧
      actions = first ++ rest := by
  simp only [obtainAll, bind_eq_ok_iff] at h
  obtain ⟨⟨middle, result⟩, hfirst, first, hactions, ⟨last, rest⟩, hrest, hpure⟩ := h
  cases hpure
  cases result with
  | failure missing => cases hactions
  | success =>
    cases hactions
    exact ⟨middle, first, rest, hfirst, hrest, rfl⟩

/-- The actions replay, and a requirement that is met stays met, whatever is done for the
other ones; nothing else changes. -/
theorem obtainAll_spec (henv : env.ChildFootprints) (hperms : perms ⊆ solveConflicts permissions)
    (hrefl : ∀ perm ∈ perms, (perm.getPlace == perm.getPlace) = true)
    (h : obtainAll env fuel order state perms = .ok (state', actions)) :
    (∀ ρ : ℚ, 0 < ρ → ρ < 1 → Replays env ρ (state.mask ρ) actions (state'.mask ρ)) ∧
      (∀ kind place, (∀ perm ∈ perms, perm.Apart place) →
        (state'.held kind).get? place = (state.held kind).get? place) ∧
      ∀ perm ∈ solveConflicts permissions, state.Holds perm.kind perm.getPlace ∨ perm ∈ perms →
        (perm.isAcc = true ∧ perm.isLocal = true) ∨ state'.Holds perm.kind perm.getPlace := by
  induction perms generalizing order state actions with
  | nil =>
    cases h
    exact ⟨fun ρ _ _ => Replays.nil _, fun _ _ _ => rfl,
      fun perm _ hmet => .inr (hmet.resolve_right nofun)⟩
  | cons req perms ih =>
    obtain ⟨middle, first, rest, hfirst, hrest, rfl⟩ := obtainAll_cons h
    rw [List.cons_subset] at hperms
    rw [List.forall_mem_cons] at hrefl
    obtain ⟨hreplays, hsame, hmet⟩ := ih hperms.2 hrefl.2 hrest
    refine ⟨fun ρ h0 h1 => (obtain_replays h0 h1 hfirst).append (hreplays ρ h0 h1), ?_, ?_⟩
    · intro kind place hapart
      rw [List.forall_mem_cons] at hapart
      rw [hsame kind place hapart.2, obtain_get?_of_apart henv hrefl.1 hapart.1 hfirst]
    rintro perm hperm (hheld | hmem)
    · refine hmet perm hperm (.inl ?_)
      by_cases hsat : isSatisfied state req = true
      · rwa [(obtain_of_isSatisfied hsat hfirst).1]
      · exact hheld.obtain henv
          (spares_of_solveConflicts hperms.1 hperm (Bool.eq_false_iff.mpr hsat) hheld) hfirst
    · rcases List.mem_cons.mp hmem with rfl | hmem
      · exact (obtain_held hfirst hrefl.1).elim .inl fun ⟨amount, hamount, _⟩ =>
          hmet perm hperm (.inl (State.holds_iff.mpr ⟨amount, hamount⟩))
      · exact hmet perm hperm (.inr hmem)

/-- If all permissions are obtained, then the actions lead to the final state, it has every
requirement but the ones below a predicate that is required too, and nothing else changes. -/
theorem obtainPermissions_spec (henv : env.ChildFootprints)
    (hrefl : ∀ perm ∈ permissions, (perm.getPlace == perm.getPlace) = true)
    (h : obtainPermissions env fuel order state permissions = .ok (state', actions)) :
    (∀ ρ : ℚ, 0 < ρ → ρ < 1 → Replays env ρ (state.mask ρ) actions (state'.mask ρ)) ∧
      (∀ kind place, (∀ perm ∈ permissions, perm.Apart place) →
        (state'.held kind).get? place = (state.held kind).get? place) ∧
      ∀ perm ∈ permissions, state'.containsPerm perm = true ∨
        (perm.isAcc = true ∧ perm.isLocal = true) ∨
        ∃ other ∈ permissions, other.isPred = true ∧
          perm.hasProperPrefix other.getPlace = true := by
  simp only [obtainPermissions, bind_eq_ok_iff] at h
  obtain ⟨_, _, ⟨last, actions'⟩, hall, _, _, hpure⟩ := h
  cases hpure
  obtain ⟨hreplays, hsame, hmet⟩ := obtainAll_spec henv (List.Subset.refl _)
    (fun perm hperm => hrefl perm (List.mem_of_mem_filter hperm)) hall
  refine ⟨hreplays, fun kind place hapart => hsame kind place fun perm hperm =>
    hapart perm (List.mem_of_mem_filter hperm), fun perm hperm => ?_⟩
  by_cases hleft : perm ∈ solveConflicts permissions
  · rw [State.containsPerm_iff, ← State.holds_iff]
    exact (hmet perm hleft (.inr hleft)).symm.imp id .inl
  · simp only [solveConflicts, List.mem_filter, hperm, true_and, Bool.not_eq_true',
      Bool.not_eq_false, List.any_eq_true, Bool.and_eq_true] at hleft
    exact .inr (.inr hleft)

end All

/-- `x` is unfolded for `x.g`, which is kept when `x.f` is unfolded too. -/
theorem Witness.obtainPermissions_spec_folded : ∃ result,
    obtainPermissions Witness.env 3 .identity folded
      [.acc xg .write, .acc (xf.mkField valInt) .write] = .ok result ∧
      result.1.containsPerm (.acc xg .write) = true := by
  have hobtain : ∃ result, obtainPermissions Witness.env 3 .identity folded
      [.acc xg .write, .acc (xf.mkField valInt) .write] = .ok result := ⟨_, rfl⟩
  obtain ⟨⟨state', actions⟩, hobtain⟩ := hobtain
  have hspec := (obtainPermissions_spec childFootprints_env (by decide) hobtain).2.2 _ (.head _)
  exact ⟨_, hobtain, hspec.resolve_right (by decide)⟩

end Prusti.FoldUnfold

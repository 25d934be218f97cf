/-
The recursion of `obtain` ends.  Unfolding a predicate above the request moves
the predicates on the way to the request down; once there is none left, the
recursion only goes to the children of the request, as far as there are access
permissions.
-/
import Prusti.FoldUnfold.Halting
import Mathlib.Algebra.Order.BigOperators.Group.List

namespace Prusti.FoldUnfold

open Prusti.Vir Prusti.Lib

variable {fuel : Nat} {order : IterOrder} {req : Perm} {variant : Option EnumVariantIndex}
  {debug : Bool}
  {bodyFootprint : String → Option EnumVariantIndex → Except Exn (Expr × HashSet Perm)}
  {footprint : HashSet Perm}

/-! Without a predicate above the request the access permissions bound the
recursion. -/

/-- No access permission is higher than the bound. -/
def AccUpTo (bound : Nat) (state : State) : Prop := ∀ place ∈ state.accPlaces, place.height ≤ bound

theorem exists_accUpTo (state : State) : ∃ bound, AccUpTo bound state := by
  refine ⟨(state.accPlaces.map Expr.height).sum, ?_⟩
  intro place hplace
  exact List.le_sum_of_mem (List.mem_map_of_mem hplace)

section Fold

variable {env : Env} {bound : Nat}

variable {state state' : State}

theorem AccUpTo.removePerm {perm : Perm} (hstate : AccUpTo bound state)
    (h : state.removePerm perm = .ok state') :
    AccUpTo bound state' := by
  cases perm with
  | pred place amount =>
    obtain ⟨map, _, hpure⟩ := exists_of_bind_eq_ok h
    cases hpure
    exact hstate
  | acc place amount =>
    obtain ⟨map, hmap, hpure⟩ := exists_of_bind_eq_ok h
    cases hpure
    intro other hother
    unfold removeAmount at hmap
    split at hmap
    · next old hold =>
        obtain ⟨entry, hentry, rfl⟩ := List.mem_map.mp hother
        split at hmap
        · cases hmap
          exact hstate _ (List.mem_map_of_mem (List.mem_filter.mp hentry).1)
        · obtain ⟨amount', _, hpure⟩ := exists_of_bind_eq_ok hmap
          cases hpure
          rcases HashMap.mem_entries_insert hentry with ⟨key, hkey, hsame⟩ | hnew
          · rw [← hsame]
            exact hstate _ (List.mem_map_of_mem hkey)
          · obtain ⟨key, hkey, heq⟩ := HashMap.exists_key_of_get? hold
            rw [hnew, ← Expr.height_congr heq]
            exact hstate key hkey
    · cases hmap

theorem AccUpTo.removeAllPerms {perms : List Perm} (hstate : AccUpTo bound state)
    (h : state.removeAllPerms perms = .ok state') : AccUpTo bound state' := by
  induction perms generalizing state with
  | nil =>
    cases h
    exact hstate
  | cons perm perms ih =>
    obtain ⟨middle, hperm, hperms⟩ := State.removeAllPerms_cons_eq_ok_iff.mp h
    exact ih (hstate.removePerm hperm) hperms

theorem AccUpTo.foldPlace {place : Expr} {amount : PermAmount} {places : List Perm}
    (hstate : AccUpTo bound state) (h : foldPlace env state place amount places = .ok state') :
    AccUpTo bound state' := by
  obtain ⟨middle, hremove, hinsert⟩ := foldPlace_eq_ok h
  have hmiddle := hstate.removeAllPerms hremove
  obtain ⟨map, _, hpure⟩ := exists_of_bind_eq_ok hinsert
  cases hpure
  exact hmiddle

/-- A request below which nothing is unfolded adds no access permission. -/
theorem AccUpTo.obtain (henv : env.ChildFootprints) {result : ObtainResult}
    (hstate : AccUpTo bound state) (h : obtain env fuel order state req = .ok (state', result))
    (hnone : NoPredAbove state req.getPlace) : AccUpTo bound state' := by
  induction fuel generalizing order state state' req result with
  | zero => cases h
  | succ fuel ih =>
    have habove := (prefixPred_eq_none_iff order state req).mpr hnone
    cases hsat : isSatisfied state req with
    | true =>
      obtain ⟨rfl, _⟩ := obtain_of_isSatisfied hsat h
      exact hstate
    | false =>
      rcases obtain_of_prefixPred_eq_none hsat habove h with
        ⟨_, rfl, _⟩ | ⟨hpred, fuel', hfuel, hfold⟩
      · exact hstate
      · cases hfuel
        obtain ⟨name, predicate, variant, places, hsetup, hcases⟩ := obtainFold_cases hfold
        rcases hcases with ⟨_, rfl, _⟩ | ⟨hcan, amount, _, hcases⟩
        · exact hstate
        · have hchildren := (foldRequests_isChildOf henv hsetup hcan).2
          have hat := noPredAt_of_unsatisfied hsat hpred hnone
          have heach : ∀ {order middle each},
              obtainEach (FoldUnfold.obtain env fuel) order state
                (foldRequests req places) = .ok (middle, each) →
              AccUpTo bound middle := by
            intro order middle each heach
            refine (@obtainEach_keeps _ (fun state =>
              NoPredAt state req.getPlace ∧ AccUpTo bound state) _ ?_
              _ _ _ _ ⟨hat, hstate⟩ heach).2
            intro child hchild order state state' result hboth hobtain
            have hbelow := noPredAbove_of_isChildOf (hchildren child hchild) hboth.1
            exact ⟨hboth.1.of_sameOutside (hchildren child hchild)
              (obtain_sameOutside henv hobtain hbelow), ih hboth.2 hobtain hbelow⟩
          rcases hcases with ⟨_, hmiddle, _⟩ | ⟨_, middle, hmiddle, hplace, _⟩
          · exact heach hmiddle
          · exact (heach hmiddle).foldPlace hplace

theorem halts_of_isSatisfied (hsat : isSatisfied state req = true) :
    Halts (FoldUnfold.obtain env (fuel + 1) order state req) := by
  unfold FoldUnfold.obtain
  split
  · exact Halts.pure _
  · next hcontains =>
      rw [isSatisfied, Bool.eq_false_iff.mpr hcontains, Bool.false_or] at hsat
      rw [if_pos hsat]
      exact Halts.pure _

/-- The two ways to go on with a request. -/
theorem obtain_of_unsatisfied (hsat : isSatisfied state req = false) :
    FoldUnfold.obtain env (fuel + 1) order state req =
      match prefixPred order state req with
      | some existing => do
        let permAmount ← orPanic (state.pred.get? existing)
        assert (permAmount.ge req.getPermAmount)
        let variant ← findVariant existing req.getPlace
        let (state, action) ← unfold env (order.call 0) state existing permAmount variant
        let (state, result) ← FoldUnfold.obtain env fuel (order.call 1) state req
        let newActions ← result.getActions
        pure (state, .success (action :: newActions))
      | none =>
        if req.isPred then
          obtainFold env (FoldUnfold.obtain env fuel) (order.call 2) state req
        else pure (state, .failure req) := by
  rw [isSatisfied, Bool.or_eq_false_iff] at hsat
  have hheld : ¬ state.containsPerm req = true := by simp [hsat.1]
  have hlocal : ¬ (req.isAcc && req.isLocal) = true := by simp [hsat.2]
  conv => lhs; unfold FoldUnfold.obtain
  exact (if_neg hheld).trans ((if_neg hlocal).trans rfl)

/-- A fold halts if its requests do. -/
theorem halts_obtainFold {obtain : IterOrder → State → Perm → Except Exn (State × ObtainResult)}
    (heach : ∀ name predicate variant places order',
      FoldSetup env order state req name predicate variant places →
      canFold state predicate req.getPlace places = true →
      Halts (obtainEach obtain order' state (foldRequests req places))) :
    Halts (obtainFold env obtain order state req) := by
  apply (halts_orPanic _).bind_of
  intro name hname
  apply (halts_orPanic _).bind_of
  intro predicate hpredicate
  apply (halts_findUnfoldedVariant _ _ _).bind_of
  intro variant hvariant
  apply (halts_placesInPred _ _ _ _).bind_of
  intro places hplaces
  split
  · next hcan =>
      apply (halts_foldAmount state places).bind
      intro permAmount
      apply (heach name predicate variant places _
        ⟨(orPanic_eq_ok_iff _ _).mp hname, (orPanic_eq_ok_iff _ _).mp hpredicate,
          hvariant, hplaces⟩ hcan).bind
      intro ⟨middle, result⟩
      cases result with
      | failure missing => exact Halts.pure _
      | success actions => exact (halts_foldPlace _ _ _ _).bind fun _ => Halts.pure _
  · exact Halts.pure _

/-- A fold with requests has access permissions below it. -/
theorem height_lt_of_canFold {predicate : Predicate} {place : Expr} {places : List Perm}
    (hstate : AccUpTo bound state) (hcan : canFold state predicate place places = true)
    (hne : places ≠ []) :
    place.height < bound := by
  rcases Bool.or_eq_true_iff.mp hcan with hbegins | hempty
  · obtain ⟨other, hother, hbelow⟩ := List.any_eq_true.mp hbegins
    have hlt := Expr.height_lt_of_hasProperPrefix hbelow
    have hle := hstate other hother
    omega
  · have hnil := List.isEmpty_iff.mp (Bool.and_eq_true_iff.mp hempty).1
    exact absurd hnil hne

/-- Folding ends: the requests go down one step at a time, and not further
than the access permissions. -/
theorem halts_obtain_of_noPredAbove (henv : env.ChildFootprints) (hstate : AccUpTo bound state)
    (hnone : NoPredAbove state req.getPlace) (hfuel : bound + 1 - req.getPlace.height < fuel) :
    Halts (obtain env fuel order state req) := by
  induction fuel generalizing order state req with
  | zero => exact absurd hfuel (Nat.not_lt_zero _)
  | succ fuel ih =>
    cases hsat : isSatisfied state req with
    | true => exact halts_of_isSatisfied hsat
    | false =>
      have habove := (prefixPred_eq_none_iff order state req).mpr hnone
      rw [obtain_of_unsatisfied hsat, habove]
      cases hpred : req.isPred with
      | false => exact Halts.pure _
      | true =>
        have hat := noPredAt_of_unsatisfied hsat hpred hnone
        apply halts_obtainFold
        intro name predicate variant places order' hsetup hcan
        obtain ⟨hplaces, hchildren⟩ := foldRequests_isChildOf henv hsetup hcan
        refine @halts_obtainEach _ (fun state =>
          NoPredAt state req.getPlace ∧ AccUpTo bound state) _ ?_ ?_ _ _
          ⟨hat, hstate⟩
        · intro child hchild order state state' result hboth hobtain
          have hbelow := noPredAbove_of_isChildOf (hchildren child hchild) hboth.1
          exact ⟨hboth.1.of_sameOutside (hchildren child hchild)
            (obtain_sameOutside henv hobtain hbelow), hboth.2.obtain henv hobtain hbelow⟩
        · intro child hchild order state hboth
          apply ih hboth.2
          · exact noPredAbove_of_isChildOf (hchildren child hchild) hboth.1
          · have hheight := (hchildren child hchild).height_eq
            -- The request is folded since something is held below it.
            have hlow := height_lt_of_canFold hstate hcan
              (List.ne_nil_of_mem (List.mem_map.mp hchild).choose_spec.1)
            omega

end Fold

/-! Every unfold moves a predicate on the way to the request down. -/

/-- The predicates on the way up from a place, each weighed with its distance
from the request. -/
def unfoldWork (state : State) (distance : Nat) (place : Expr) : Nat :=
  (if state.containsPred place then distance else 0) +
    match place with
    | .variant base _ _ | .field base _ _ | .addrOf base _ _ =>
      unfoldWork state (distance + 1) base
    | _ => 0

theorem unfoldWork_eq (state : State) (distance : Nat) (place : Expr) :
    unfoldWork state distance place =
      (if state.containsPred place then distance else 0) +
        (place.getParent.elim 0 (unfoldWork state (distance + 1))) := by
  cases place <;> rfl

/-- Predicates further down do not count. -/
theorem unfoldWork_congr {state state' : State} {distance : Nat} {place : Expr}
    (h : ∀ above : Expr, above.height ≤ place.height →
      state'.containsPred above = state.containsPred above) :
    unfoldWork state' distance place = unfoldWork state distance place := by
  induction place using Expr.parent_induction generalizing distance with
  | step place ih =>
    rw [unfoldWork_eq, unfoldWork_eq, h place (Nat.le_refl _)]
    cases hparent : place.getParent with
    | none => rfl
    | some parent =>
      have hheight := Expr.height_of_getParent hparent
      exact congrArg _ (ih parent hparent fun above habove =>
        h above (by omega))

/-- The predicate at a place is exchanged for permissions of its children. -/
structure MovesDown (state state' : State) (existing : Expr) : Prop where
  held : state.containsPred existing = true
  gone : ∀ other, (other == existing) = true → state'.containsPred other = false
  same : ∀ other, (other == existing) = false → ¬ other.IsChildOf existing →
    state'.containsPred other = state.containsPred other

section Unfold

variable {state state' : State} {existing : Expr} {distance : Nat} {place : Expr}

theorem MovesDown.unfoldWork_add (h : MovesDown state state' existing)
    (heq : (place == existing) = true) :
    unfoldWork state distance place = distance + unfoldWork state' distance place := by
  have hheld : state.containsPred place = true := by
    rw [State.containsPred, HashMap.contains_congr _ heq]
    exact h.held
  have habove : place.getParent.elim 0 (unfoldWork state' (distance + 1)) =
      place.getParent.elim 0 (unfoldWork state (distance + 1)) := by
    cases hparent : place.getParent with
    | none => rfl
    | some parent =>
      apply unfoldWork_congr
      intro above hle
      have hheight := Expr.height_of_getParent hparent
      have hexisting := Expr.height_congr heq
      apply h.same above
      · rw [Bool.eq_false_iff]
        intro hsame
        have := Expr.height_congr hsame
        omega
      · intro hchild
        have := hchild.height_eq
        omega
  rw [unfoldWork_eq, unfoldWork_eq, hheld, h.gone place heq, habove]
  simp

/-- The work gets less. -/
theorem MovesDown.unfoldWork_lt (h : MovesDown state state' existing)
    (hbegins : place.hasPrefix existing = true) (hdistance : 0 < distance) :
    unfoldWork state' distance place < unfoldWork state distance place := by
  induction place using Expr.parent_induction generalizing distance with
  | step place ih =>
    cases heq : place == existing with
    | true =>
      have hadd : unfoldWork state distance place =
          distance + unfoldWork state' distance place := h.unfoldWork_add heq
      omega
    | false =>
      obtain ⟨parent, hparent, hparentPrefix⟩ :=
        ((Expr.hasPrefix_iff _ _).mp hbegins).resolve_left (by simp [heq])
      rw [unfoldWork_eq state', unfoldWork_eq state, hparent]
      change _ + unfoldWork state' (distance + 1) parent <
        _ + unfoldWork state (distance + 1) parent
      cases hparentEq : parent == existing with
      | true =>
        -- The child of the unfolded place may get a predicate.
        have hadd : unfoldWork state (distance + 1) parent =
            distance + 1 + unfoldWork state' (distance + 1) parent :=
          h.unfoldWork_add hparentEq
        split <;> split <;> omega
      | false =>
        have hnot : ¬ place.IsChildOf existing := by
          rintro ⟨above, habove, hsame⟩
          rw [hparent] at habove
          cases habove
          rw [hparentEq] at hsame
          cases hsame
        have hlt : unfoldWork state' (distance + 1) parent <
            unfoldWork state (distance + 1) parent :=
          ih parent hparent hparentPrefix (Nat.succ_pos distance)
        rw [h.same place heq hnot]
        omega

end Unfold

section Obtain

variable {env : Env}

/-- The unfold of a predicate with its whole amount. -/
theorem movesDown_of_unfold (henv : env.ChildFootprints) {state state' : State} {existing : Expr}
    {amount : PermAmount} {action : Action} (hself : (existing == existing) = true)
    (hamount : state.pred.get? existing = some amount)
    (h : unfold env order state existing amount variant = .ok (state', action)) :
    MovesDown state state' existing := by
  obtain ⟨name, predicate, places, middle, _, hpredicate, hplaces, _, hremove,
    hinsert, _⟩ := unfold_eq_ok h
  have hchild : ∀ perm ∈ places.map fun perm => perm.withAmount amount,
      perm.getPlace.IsChildOf existing := by
    intro perm hperm
    obtain ⟨inner, hinner, rfl⟩ := List.mem_map.mp hperm
    rw [Perm.getPlace_withAmount]
    exact placesInPred_isChildOf henv hpredicate hplaces hself inner hinner
  have hbody : ∀ other : Expr, ¬ other.IsChildOf existing →
      state'.pred.get? other = middle.pred.get? other := by
    intro other hother
    apply State.insertAllPerms_get?_of_ne _ hinsert .pred
    intro perm hperm
    rw [Bool.eq_false_iff]
    intro heq
    exact hother ((hchild perm hperm).congr heq)
  have hmiddle : middle = { state with pred := state.pred.erase existing } := by
    obtain ⟨map, hmap, hpure⟩ := exists_of_bind_eq_ok hremove
    cases hpure
    unfold removeAmount at hmap
    rw [hamount] at hmap
    simp only [BEq.rfl, if_true] at hmap
    cases hmap
    rfl
  refine ⟨(HashMap.contains_iff _ _).mpr ⟨amount, hamount⟩, ?_, ?_⟩
  · intro other heq
    have hnot : ¬ other.IsChildOf existing := by
      intro hchild
      have := hchild.height_eq
      have := Expr.height_congr heq
      omega
    rw [State.containsPred, HashMap.contains_eq_false_iff, hbody other hnot,
      hmiddle, HashMap.get?_erase, if_pos (BEq.symm heq)]
  · intro other hne hnot
    have hne' : (existing == other) = false := BEq.comm.trans hne
    rw [State.containsPred, State.containsPred, HashMap.contains_eq_isSome,
      HashMap.contains_eq_isSome, hbody other hnot, hmiddle, HashMap.get?_erase,
      if_neg (by simp [hne'])]

/-- Computations that halt with enough fuel, one after the other. -/
theorem exists_fuel_bind {α β : Type} {first : Except Exn α}
    {next : Nat → α → Except Exn β} (hfirst : Halts first)
    (hnext : ∀ value, first = .ok value → ∃ enough, ∀ fuel ≥ enough, Halts (next fuel value)) :
    ∃ enough, ∀ fuel ≥ enough, Halts (first >>= next fuel) := by
  cases first with
  | ok value => exact hnext value rfl
  | error exn =>
    refine ⟨0, fun fuel _ => ?_⟩
    exact hfirst.bind_of nofun

/-- The recursion of `obtain` ends: there is a fuel from which on it is not
used up. -/
theorem obtain_halts (henv : env.ChildFootprints) (order : IterOrder) (state : State) (req : Perm) :
    ∃ enough, ∀ fuel ≥ enough, Halts (obtain env fuel order state req) := by
  suffices h : ∃ enough, ∀ fuel ≥ enough, Halts (obtain env (fuel + 1) order state req) by
    obtain ⟨enough, henough⟩ := h
    refine ⟨enough + 1, fun fuel hfuel => ?_⟩
    obtain ⟨fuel', rfl⟩ : ∃ fuel', fuel = fuel' + 1 := ⟨fuel - 1, by omega⟩
    exact henough fuel' (by omega)
  induction hwork : req.getPlace.getParent.elim 0 (unfoldWork state 1)
    using Nat.strong_induction_on generalizing order state with
  | h work ih =>
    cases hsat : isSatisfied state req with
    | true => exact ⟨0, fun fuel _ => halts_of_isSatisfied hsat⟩
    | false =>
      simp only [obtain_of_unsatisfied hsat]
      cases habove : prefixPred order state req with
      | none =>
        obtain ⟨bound, hbound⟩ := exists_accUpTo state
        refine ⟨bound + 2, fun fuel hfuel => ?_⟩
        have hnone := (prefixPred_eq_none_iff order state req).mp habove
        have hhalts : Halts (obtain env (fuel + 1) order state req) :=
          halts_obtain_of_noPredAbove henv hbound hnone (by omega)
        rw [obtain_of_unsatisfied hsat, habove] at hhalts
        exact hhalts
      | some existing =>
        have hbelow : req.hasProperPrefix existing = true := List.find?_some habove
        obtain ⟨parent, hparent, hbegins⟩ := (Expr.hasProperPrefix_iff_getParent _ _).mp hbelow
        apply exists_fuel_bind (halts_orPanic _)
        intro amount hamount
        apply exists_fuel_bind (halts_assert _)
        intro _ _
        apply exists_fuel_bind (halts_findVariant _ _)
        intro variant _
        apply exists_fuel_bind (halts_unfold _ _ _ _ _)
        intro ⟨next, action⟩ hunfold
        have hmoves := movesDown_of_unfold henv (Expr.beq_self_of_hasPrefix hbegins)
          ((orPanic_eq_ok_iff _ _).mp hamount) hunfold
        have hless := hmoves.unfoldWork_lt hbegins Nat.one_pos
        rw [hparent] at hwork
        obtain ⟨enough, henough⟩ := ih (unfoldWork next 1 parent)
          (by rw [← hwork]; exact hless) (order.call 1) next
          (by rw [hparent]; rfl)
        refine ⟨enough + 1, fun fuel hfuel => ?_⟩
        obtain ⟨fuel', rfl⟩ : ∃ fuel', fuel = fuel' + 1 := ⟨fuel - 1, by omega⟩
        apply (henough fuel' (by omega)).bind
        intro ⟨last, result⟩
        cases result with
        | success actions => exact Halts.pure _
        | failure missing => exact Halts.error _

end Obtain

/-! The tables made by the constructors of predicates. -/

/-- A predicate made by one of the constructors; the bounds of a primitive
value are constants. -/
inductive Constructed : Predicate → Prop where
  | abstract (typ : Typ) : Constructed (.newAbstract typ)
  | primitiveValue (typ : Typ) (fld : Field) (bounds : Option (Expr × Expr)) (isUnsigned : Bool)
      (hbounds : ∀ lower upper, bounds = some (lower, upper) →
        (∃ value pos, lower = .const value pos) ∧ ∃ value pos, upper = .const value pos) :
      Constructed (.newPrimitiveValue typ fld bounds isUnsigned)
  | struct {typ : Typ} {fields : List Field} {predicate : Predicate}
      (h : Predicate.newStruct typ fields = some predicate) :
      Constructed predicate
  | enum {this : LocalVar} {discriminantField : Field}
      {discriminantBounds : Expr} {variants : List EnumVariant}
      {predicate : Predicate}
      (h : Predicate.newEnum this discriminantField discriminantBounds variants =
        some predicate) : Constructed predicate
  | bodyless (name : String) (this : LocalVar) : Constructed (.bodyless name this)

/-- A footprint that speaks about the children of `self` only. -/
def SelfFootprint (this : LocalVar) (footprint : HashSet Perm) : Prop :=
  ∀ perm ∈ footprint.keys, perm.getPlace.IsChildOf (Expr.ofLocal this)

section Constructors

variable {this : LocalVar}

theorem SelfFootprint.empty : SelfFootprint this HashMap.empty := nofun

theorem mem_keys_foldl_insert {elems : List Perm} {set : HashSet Perm}
    {perm : Perm} (h : perm ∈ (elems.foldl HashSet.insert set).keys) :
    perm ∈ set.keys ∨ perm ∈ elems := by
  induction elems generalizing set with
  | nil => exact .inl h
  | cons head tail ih =>
    rcases ih h with hset | htail
    · obtain ⟨entry, hentry, rfl⟩ := List.mem_map.mp hset
      rcases HashMap.mem_entries_insert hentry with ⟨old, hold, hsame⟩ | hnew
      · rw [← hsame]
        exact .inl (List.mem_map_of_mem hold)
      · rw [hnew]
        exact .inr List.mem_cons_self
    · exact .inr (List.mem_cons_of_mem _ htail)

theorem SelfFootprint.union {left right : HashSet Perm}
    (hleft : SelfFootprint this left) (hright : SelfFootprint this right) :
    SelfFootprint this (HashSet.union left right) := by
  intro perm hperm
  rcases mem_keys_foldl_insert hperm with h | h
  · exact hleft perm h
  · exact hright perm h

theorem SelfFootprint.ofList {perms : List Perm}
    (h : ∀ perm ∈ perms, perm.getPlace.IsChildOf (Expr.ofLocal this)) :
    SelfFootprint this (HashSet.ofList perms) := by
  intro perm hperm
  rcases mem_keys_foldl_insert hperm with hnone | hperm
  · cases hnone
  · exact h perm hperm

/-- The footprint of a conjunction of parts. -/
theorem selfFootprint_conjoin {parts : List Expr} (hparts : ∀ part ∈ parts, ∀ footprint,
      getFootprint debug bodyFootprint part = .ok footprint → SelfFootprint this footprint)
    (h : getFootprint debug bodyFootprint (Expr.conjoin parts) = .ok footprint) :
    SelfFootprint this footprint := by
  induction parts generalizing footprint with
  | nil =>
    cases h
    exact SelfFootprint.empty
  | cons part parts ih =>
    change (getFootprint debug bodyFootprint part >>= _) = _ at h
    simp only [bind_eq_ok_iff] at h
    obtain ⟨first, hfirst, rest, hrest, hpure⟩ := h
    cases hpure
    exact (hparts part List.mem_cons_self first hfirst).union
      (ih (fun other hother => hparts other (List.mem_cons_of_mem _ hother)) hrest)

theorem isChildOf_mkField (fld : Field) :
    ((Expr.ofLocal this).mkField fld).IsChildOf (Expr.ofLocal this) :=
  ⟨_, rfl, show (this == this) = true from BEq.rfl⟩

/-- The bounds of a primitive value have no footprint. -/
theorem selfFootprint_leCmp {left right : Expr}
    (hleft : getFootprint debug bodyFootprint left = .ok HashMap.empty)
    (hright : getFootprint debug bodyFootprint right = .ok HashMap.empty)
    (h : getFootprint debug bodyFootprint (Expr.leCmp left right) = .ok footprint) :
    SelfFootprint this footprint := by
  change (getFootprint debug bodyFootprint left >>= _) = _ at h
  simp only [hleft, hright, ok_bind] at h
  cases h
  exact SelfFootprint.empty.union SelfFootprint.empty

/-- The footprint of an access permission to a field. -/
theorem selfFootprint_accPermission {fld : Field} (h : getFootprint debug bodyFootprint
      (((Expr.ofLocal this).mkField fld).accPermission .write) =
        .ok footprint) : SelfFootprint this footprint := by
  change (assert _ >>= _) = _ at h
  simp only [bind_eq_ok_iff] at h
  obtain ⟨_, _, _, _, hpure⟩ := h
  cases hpure
  exact SelfFootprint.ofList (List.forall_mem_singleton.mpr (isChildOf_mkField fld))

/-- The footprint of the permissions to a field of a structure. -/
theorem selfFootprint_fieldPermissions {fld : Field} {permissions : List Expr}
    (hpermissions : StructPredicate.fieldPermissions this fld = some permissions) {part : Expr}
    (hpart : part ∈ permissions) (h : getFootprint debug bodyFootprint part = .ok footprint) :
    SelfFootprint this footprint := by
  unfold StructPredicate.fieldPermissions at hpermissions
  split at hpermissions
  · cases hpermissions
    rcases List.mem_cons.mp hpart with rfl | hpart
    · exact selfFootprint_accPermission h
    · rw [List.mem_singleton.mp hpart] at h
      cases h
      exact SelfFootprint.ofList (List.forall_mem_singleton.mpr (isChildOf_mkField fld))
  · cases hpermissions

/-- The footprint of an enumeration speaks about its discriminant and its
variants, whatever the bounds and the guards are. -/
theorem selfFootprint_enum {predicate : EnumPredicate}
    (h : Predicate.getBodyFootprint debug (.enum predicate) variant = .ok footprint) :
    SelfFootprint predicate.this footprint := by
  have hdiscriminant : SelfFootprint predicate.this
      (EnumPredicate.getUnderapproximatedBodyFootprint predicate) :=
    SelfFootprint.ofList (List.forall_mem_singleton.mpr (isChildOf_mkField _))
  cases variant with
  | none =>
    cases h
    exact hdiscriminant
  | some variant =>
    change (EnumPredicate.getVariantFootprint predicate variant >>= _) = _ at h
    rw [bind_eq_ok_iff] at h
    obtain ⟨perms, hperms, hpure⟩ := h
    cases hpure
    apply hdiscriminant.union
    unfold EnumPredicate.getVariantFootprint at hperms
    simp only [bind_eq_ok_iff, orPanic_eq_ok_iff] at hperms
    obtain ⟨place, hplace, hpure⟩ := hperms
    cases hpure
    have hchild : place.IsChildOf (Expr.ofLocal predicate.this) := by
      unfold Expr.mkVariant at hplace
      split at hplace
      · cases hplace
        exact ⟨_, rfl, show (predicate.this == predicate.this) = true from BEq.rfl⟩
      · cases hplace
    exact SelfFootprint.ofList (List.forall_mem_cons.mpr
      ⟨hchild, List.forall_mem_singleton.mpr hchild⟩)

/-- The footprint of a structure whose body is a conjunction of parts. -/
theorem selfFootprint_struct {name : String} {parts : List Expr}
    (hparts : ∀ part ∈ parts, ∀ footprint,
      getFootprint debug (fun _ _ => .error .panic) part = .ok footprint →
        SelfFootprint this footprint)
    (h : Predicate.getBodyFootprint debug
      (.struct ⟨name, this, some (Expr.conjoin parts)⟩) variant =
        .ok footprint) : SelfFootprint this footprint := by
  change (assert variant.isNone >>= _) = _ at h
  rw [bind_eq_ok_iff] at h
  obtain ⟨_, _, hbody⟩ := h
  exact selfFootprint_conjoin hparts hbody

end Constructors

/-- Every constructor makes a body that speaks about the children of `self`. -/
theorem Constructed.selfFootprint {predicate : Predicate} (hpredicate : Constructed predicate)
    (h : Predicate.getBodyFootprint debug predicate variant = .ok footprint) :
    ∀ perm ∈ footprint.keys, perm.getPlace.IsChildOf predicate.selfPlace := by
  cases hpredicate with
  | abstract typ =>
    change (assert variant.isNone >>= _) = _ at h
    rw [bind_eq_ok_iff] at h
    obtain ⟨_, _, hpure⟩ := h
    cases hpure
    exact @SelfFootprint.empty ⟨"self", typ⟩
  | bodyless name this =>
    cases h
    exact @SelfFootprint.empty this
  | primitiveValue typ fld bounds isUnsigned hbounds =>
    refine selfFootprint_struct ?_ h
    intro part hpart footprint hfootprint
    rcases List.mem_cons.mp hpart with rfl | hpart
    · exact selfFootprint_accPermission hfootprint
    · cases bounds with
      | some pair =>
        obtain ⟨lower, upper⟩ := pair
        obtain ⟨⟨_, _, rfl⟩, _, _, rfl⟩ := hbounds lower upper rfl
        rcases List.mem_cons.mp hpart with rfl | hpart
        · exact selfFootprint_leCmp rfl rfl hfootprint
        · rw [List.mem_singleton.mp hpart] at hfootprint
          exact selfFootprint_leCmp rfl rfl hfootprint
      | none =>
        cases isUnsigned with
        | true =>
          rw [List.mem_singleton.mp hpart] at hfootprint
          exact selfFootprint_leCmp rfl rfl hfootprint
        | false => cases hpart
  | struct hnew =>
    obtain ⟨inner, hinner, rfl⟩ := Option.map_eq_some_iff.mp hnew
    obtain ⟨permissions, hpermissions, rfl⟩ := Option.map_eq_some_iff.mp hinner
    refine selfFootprint_struct ?_ h
    intro part hpart footprint hfootprint
    obtain ⟨inner, hinner, hpart⟩ := List.mem_flatten.mp hpart
    obtain ⟨fld, _, hfld⟩ := (mem_of_mapM_eq_some hpermissions).mp hinner
    exact selfFootprint_fieldPermissions hfld hpart hfootprint
  | enum hnew =>
    unfold Predicate.newEnum at hnew
    split at hnew
    · cases hnew
      exact selfFootprint_enum h
    · cases hnew

/-- The tables made by the constructors, recursive or not. -/
theorem childFootprints_of_constructed {env : Env}
    (h : ∀ name predicate, env.predicates name = some predicate →
      Constructed predicate) : env.ChildFootprints := by
  intro name predicate variant footprint hfound hfootprint
  exact (h name predicate hfound).selfFootprint hfootprint

namespace Witness

/-- A predicate whose body is the predicate itself. -/
def loopTable : String → Option Predicate
  | "P" => some (.struct ⟨"P", ⟨"self", .typedRef "P"⟩,
      some (Expr.mkPredicateAccessPredicate "P"
        (.ofLocal ⟨"self", .typedRef "P"⟩) .write)⟩)
  | _ => none

def loopEnv : Env := ⟨loopTable, true⟩

def loopVar : Expr := .ofLocal ⟨"x", .typedRef "P"⟩

/-- A field is accessible, so that the predicate may be folded. -/
def loopState : State :=
  State.new (HashMap.ofList [(loopVar, .write),
    (loopVar.mkField ⟨"f", .typedRef "i32"⟩, .write)]) HashMap.empty HashMap.empty

/-- A body that mentions its own place asks for itself forever. -/
theorem loopState_not_halts :
    loopState.checkConsistency = true ∧
      ∀ fuel, ¬ Halts (obtain loopEnv fuel .identity loopState (.pred loopVar .write)) := by
  refine ⟨by decide, fun fuel => ?_⟩
  suffices h : obtain loopEnv fuel .identity loopState (.pred loopVar .write) =
      .error .outOfFuel from fun hhalts => hhalts h
  induction fuel with
  | zero => rfl
  | succ fuel ih =>
    rw [obtain_of_unsatisfied (by decide)]
    change (obtain loopEnv fuel .identity loopState (.pred loopVar .write) >>=
      _) >>= _ = _
    rw [ih]
    rfl

/-- `enum List { Nil, Cons(Box<List>) }`, a recursive predicate. -/
def listTable : String → Option Predicate
  | "List" => do
    let consPredicate ← StructPredicate.new (.typedRef "ListCons") [⟨"f$0", .typedRef "List"⟩]
    Predicate.newEnum ⟨"self", .typedRef "List"⟩ ⟨"discriminant", .int⟩
      (.ofBool true) [⟨.ofBool true, "Cons", consPredicate⟩]
  | "ListCons" => Predicate.newStruct (.typedRef "ListCons") [⟨"f$0", .typedRef "List"⟩]
  | _ => none

def listEnv : Env := ⟨listTable, true⟩

theorem constructed_listTable (name : String) (predicate : Predicate)
    (h : listEnv.predicates name = some predicate) : Constructed predicate := by
  change listTable name = some predicate at h
  unfold listTable at h
  split at h
  · obtain ⟨_, _, hnew⟩ := Option.bind_eq_some_iff.mp h
    exact .enum hnew
  · exact .struct h
  · cases h

/-- The tail of a folded list. -/
def listTail : Expr :=
  .field (.variant (.ofLocal ⟨"x", .typedRef "List"⟩)
    ⟨"enum_Cons", .typedRef "ListCons"⟩ Position.default)
    ⟨"f$0", .typedRef "List"⟩ Position.default

def foldedListState : State :=
  State.new (HashMap.ofList [(.ofLocal ⟨"x", .typedRef "List"⟩, .write)])
    (HashMap.ofList [(.ofLocal ⟨"x", .typedRef "List"⟩, .write)]) HashMap.empty

theorem obtain_halts_listTail :
    ∃ enough, ∀ fuel ≥ enough, Halts (obtain listEnv fuel .identity
      foldedListState (.pred listTail .write)) :=
  obtain_halts (childFootprints_of_constructed constructed_listTable) .identity
    foldedListState (.pred listTail .write)

end Witness

end Prusti.FoldUnfold

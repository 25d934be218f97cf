/-
What a failed `obtain` leaves behind.  The permissions of a predicate body are
obtained one after the other; when one of them is missing, the failure is
passed on and the folds made for the earlier ones stay in the state.
-/
import Prusti.FoldUnfold.Obtain

namespace Prusti.FoldUnfold

open Prusti.Vir Prusti.Lib

variable {order : IterOrder} {state state' : State} {req perm : Perm} {name : String}
  {predicate : Predicate} {variant : Option EnumVariantIndex} {places reqs : List Perm} {fuel : Nat}
  {result : ObtainResult} {child place : Expr}

/-- The orders of the `index`-th request of `obtainEach`. -/
def nthOrder : IterOrder → Nat → IterOrder
  | order, 0 => order.call 0
  | order, index + 1 => nthOrder (order.call 1) index

/-- The request fails before anything is done: follow the first permission of
each body that is not there; the last one has no predicate above it and cannot
be folded. -/
inductive FailsClean (env : Env) : IterOrder → State → Perm → Prop where
  | acc {order : IterOrder} {state : State} {req : Perm}
      (habove : prefixPred order state req = none)
      (hacc : req.isPred = false) : FailsClean env order state req
  | cannotFold {order : IterOrder} {state : State} {req : Perm}
      {name : String} {predicate : Predicate}
      {variant : Option EnumVariantIndex} {places : List Perm}
      (habove : prefixPred order state req = none)
      (hpred : req.isPred = true)
      (hsetup : FoldSetup env (order.call 2) state req name predicate variant places)
      (hcan : canFold state predicate req.getPlace places = false) :
      FailsClean env order state req
  | firstMissing {order : IterOrder} {state : State} {req : Perm}
      {name : String} {predicate : Predicate}
      {variant : Option EnumVariantIndex} {places satisfied rest : List Perm}
      {missing : Perm}
      (habove : prefixPred order state req = none)
      (hpred : req.isPred = true)
      (hsetup : FoldSetup env (order.call 2) state req name predicate variant places)
      (hcan : canFold state predicate req.getPlace places = true)
      (hsplit : foldRequests req places = satisfied ++ missing :: rest)
      (hsatisfied : ∀ perm ∈ satisfied, isSatisfied state perm = true)
      (hmissing : isSatisfied state missing = false)
      (hclean : FailsClean env (nthOrder ((order.call 2).call 2) satisfied.length) state missing) :
      FailsClean env order state req

section Sufficient

variable {env : Env}

/-- The setup of a fold is determined by the state. -/
theorem FoldSetup.unique {name' : String} {predicate' : Predicate}
    {variant' : Option EnumVariantIndex} {places' : List Perm}
    (h : FoldSetup env order state req name predicate variant places)
    (h' : FoldSetup env order state req name' predicate' variant' places') :
    predicate = predicate' ∧ places = places' := by
  have hname : name = name' := Option.some.inj (h.refName.symm.trans h'.refName)
  subst hname
  have hpredicate : predicate = predicate' := Option.some.inj (h.found.symm.trans h'.found)
  subst hpredicate
  have hvariant : variant = variant' := Except.ok.inj (h.unfolded.symm.trans h'.unfolded)
  subst hvariant
  exact ⟨rfl, Except.ok.inj (h.body.symm.trans h'.body)⟩

/-- A satisfied request changes nothing. -/
theorem obtain_of_isSatisfied (hsat : isSatisfied state req = true)
    (h : obtain env fuel order state req = .ok (state', result)) :
    state' = state ∧ result = .success [] := by
  cases fuel with
  | zero => cases h
  | succ fuel =>
    rcases obtain_cases h with ⟨_, hstate, hresult⟩ | ⟨hunsat, _⟩
    · exact ⟨hstate, hresult⟩
    · rw [hsat] at hunsat
      cases hunsat

/-- The loop gets to the first request that is not satisfied. -/
theorem obtainEach_firstMissing {satisfied rest : List Perm} {missing : Perm}
    (hsatisfied : ∀ perm ∈ satisfied, isSatisfied state perm = true)
    (h : obtainEach (obtain env fuel) order state
      (satisfied ++ missing :: rest) = .ok (state', result)) :
    ∃ middle first,
      obtain env fuel (nthOrder order satisfied.length) state missing = .ok (middle, first) ∧
        ∀ perm, first = .failure perm → state' = middle ∧ result = .failure perm := by
  induction satisfied generalizing order state' result with
  | nil =>
    change obtainEach (obtain env fuel) order state (missing :: rest) = _ at h
    unfold obtainEach at h
    rw [bind_eq_ok_iff] at h
    obtain ⟨⟨middle, first⟩, hfirst, h⟩ := h
    refine ⟨middle, first, hfirst, ?_⟩
    rintro perm rfl
    cases h
    exact ⟨rfl, rfl⟩
  | cons head satisfied ih =>
    rw [List.cons_append] at h
    unfold obtainEach at h
    rw [bind_eq_ok_iff] at h
    obtain ⟨⟨middle, first⟩, hfirst, h⟩ := h
    obtain ⟨rfl, rfl⟩ := obtain_of_isSatisfied (hsatisfied head List.mem_cons_self) hfirst
    simp only [bind_eq_ok_iff] at h
    obtain ⟨⟨last, result'⟩, hrest, h⟩ := h
    obtain ⟨middle', first', hmissing, hfailure⟩ := ih (fun perm hperm =>
      hsatisfied perm (List.mem_cons_of_mem head hperm)) hrest
    refine ⟨middle', first', hmissing, ?_⟩
    intro perm hperm
    obtain ⟨rfl, rfl⟩ := hfailure perm hperm
    cases h
    exact ⟨rfl, rfl⟩

/-- Without a predicate above it, an unsatisfied request is folded or fails. -/
theorem obtain_of_prefixPred_eq_none (hunsat : isSatisfied state req = false)
    (habove : prefixPred order state req = none)
    (h : obtain env fuel order state req = .ok (state', result)) :
    (req.isPred = false ∧ state' = state ∧ result = .failure req) ∨
      (req.isPred = true ∧ ∃ fuel',
        fuel = fuel' + 1 ∧ obtainFold env (obtain env fuel') (order.call 2)
          state req = .ok (state', result)) := by
  cases fuel with
  | zero => cases h
  | succ fuel =>
    rcases obtain_cases h with ⟨hsat, _⟩ | ⟨_, hunfold | hfold | hfail⟩
    · rw [hunsat] at hsat
      cases hsat
    · obtain ⟨existing, _, _, _, _, _, hexisting, _⟩ := hunfold
      rw [habove] at hexisting
      cases hexisting
    · exact Or.inr ⟨hfold.2.1, fuel, rfl, hfold.2.2⟩
    · exact Or.inl ⟨hfail.2.1, hfail.2.2.1, hfail.2.2.2⟩

/-- A clean failure is a failure, and leaves the state as it was. -/
theorem FailsClean.unchanged (hclean : FailsClean env order state req)
    (hunsat : isSatisfied state req = false)
    (h : obtain env fuel order state req = .ok (state', result)) :
    state' = state ∧ ∃ perm, result = .failure perm := by
  induction hclean generalizing fuel state' result with
  | acc habove hacc =>
    rcases obtain_of_prefixPred_eq_none hunsat habove h with
      ⟨_, hstate, hresult⟩ | ⟨hpred, _⟩
    · exact ⟨hstate, _, hresult⟩
    · rw [hacc] at hpred
      cases hpred
  | cannotFold habove hpred hsetup hcan =>
    rcases obtain_of_prefixPred_eq_none hunsat habove h with
      ⟨_, hstate, hresult⟩ | ⟨_, _, _, hfold⟩
    · exact ⟨hstate, _, hresult⟩
    · obtain ⟨_, _, _, _, hsetup', hcases⟩ := obtainFold_cases hfold
      obtain ⟨rfl, rfl⟩ := hsetup.unique hsetup'
      rcases hcases with ⟨_, hstate, hresult⟩ | ⟨hcan', _⟩
      · exact ⟨hstate, _, hresult⟩
      · rw [hcan] at hcan'
        cases hcan'
  | firstMissing habove hpred hsetup hcan hsplit hsatisfied hmissing _ ih =>
    rcases obtain_of_prefixPred_eq_none hunsat habove h with
      ⟨hacc, _⟩ | ⟨_, _, _, hfold⟩
    · rw [hpred] at hacc
      cases hacc
    · obtain ⟨_, _, _, _, hsetup', hcases⟩ := obtainFold_cases hfold
      obtain ⟨rfl, rfl⟩ := hsetup.unique hsetup'
      rcases hcases with ⟨hcan', _⟩ | ⟨_, amount, _, hcases⟩
      · rw [hcan] at hcan'
        cases hcan'
      · rw [hsplit] at hcases
        rcases hcases with ⟨perm, heach, hresult⟩ |
          ⟨actions, middle, heach, _⟩
        · obtain ⟨middle, first, hfirst, hfailure⟩ := obtainEach_firstMissing hsatisfied heach
          obtain ⟨hmiddle, perm', hperm'⟩ := ih hmissing hfirst
          exact ⟨(hfailure perm' hperm').1.trans hmiddle, perm, hresult⟩
        · obtain ⟨middle, first, hfirst, hfailure⟩ := obtainEach_firstMissing hsatisfied heach
          obtain ⟨_, perm', hperm'⟩ := ih hmissing hfirst
          cases (hfailure perm' hperm').2

end Sufficient

/-- The body of every predicate speaks about the fields and variants of its
`self` argument only, as the bodies made by the encoder do. -/
def Env.ChildFootprints (env : Env) : Prop :=
  ∀ name predicate variant footprint,
    env.predicates name = some predicate →
      Predicate.getBodyFootprint env.debug predicate variant = .ok footprint →
        ∀ perm ∈ footprint.keys, perm.getPlace.IsChildOf predicate.selfPlace

/-- No predicate is held on a prefix of the place, itself included. -/
def NoPredAt (state : State) (place : Expr) : Prop :=
  ∀ other, place.hasPrefix other = true → state.pred.get? other = none

/-- No predicate is held on a proper prefix of the place. -/
def NoPredAbove (state : State) (place : Expr) : Prop :=
  ∀ other, place.hasProperPrefix other = true → state.pred.get? other = none

section Necessary

variable {env : Env}

theorem prefixPred_eq_none_iff (order : IterOrder) (state : State) (req : Perm) :
    prefixPred order state req = none ↔ NoPredAbove state req.getPlace := by
  unfold prefixPred
  rw [List.find?_eq_none]
  constructor
  · intro h other hother
    rw [← HashMap.contains_eq_false_iff, Bool.eq_false_iff]
    intro hcontains
    obtain ⟨amount, hamount⟩ := (HashMap.contains_iff _ _).mp hcontains
    obtain ⟨key, hkey, heq⟩ := HashMap.exists_key_of_get? hamount
    apply h key ((order.mem_iter 0 _ key).mpr hkey)
    change req.getPlace.hasProperPrefix key = true
    rw [Expr.hasProperPrefix_congr_right _ heq]
    exact hother
  · intro h key hkey habove
    have hmem := (order.mem_iter 0 _ key).mp hkey
    obtain ⟨entry, hentry, rfl⟩ := List.mem_map.mp hmem
    have hself := Expr.beq_self_of_hasPrefix (Expr.hasPrefix_of_hasProperPrefix habove)
    have hnone := h entry.1 habove
    rw [HashMap.get?_of_mem hentry hself] at hnone
    cases hnone

theorem noPredAbove_of_isChildOf (hchild : child.IsChildOf place) (h : NoPredAt state place) :
    NoPredAbove state child := by
  intro other hother
  rw [hchild.hasProperPrefix_eq] at hother
  exact h other hother

/-- An unsatisfied predicate is not held on its own place either. -/
theorem noPredAt_of_unsatisfied (hunsat : isSatisfied state req = false) (hpred : req.isPred = true)
    (hnone : NoPredAbove state req.getPlace) :
    NoPredAt state req.getPlace := by
  intro other hother
  by_cases heq : (req.getPlace == other) = true
  · unfold isSatisfied at hunsat
    rw [Bool.or_eq_false_iff, State.containsPerm_eq, (Perm.isPred_iff_kind req).mp hpred] at hunsat
    have hnone := (HashMap.contains_eq_false_iff _ _).mp hunsat.1
    rw [← HashMap.get?_congr _ heq]
    exact hnone
  · apply hnone other
    rw [Expr.hasProperPrefix_iff]
    exact ⟨by simpa using heq, hother⟩

theorem selfPlace_eq_ofLocal (predicate : Predicate) :
    predicate.selfPlace = Expr.ofLocal (match predicate with
      | .struct predicate => predicate.this
      | .enum predicate => predicate.this
      | .bodyless _ this => this) := by
  cases predicate <;> rfl

/-- Replacing `self` in a child of `self` gives a child of the instance. -/
theorem instantiate_getParent {this : LocalVar} {generic : Perm}
    (h : instantiate (Expr.ofLocal this) place generic = .ok perm)
    (hchild : generic.getPlace.IsChildOf (Expr.ofLocal this)) :
    perm.getPlace.getParent = some place := by
  obtain ⟨substs, rfl⟩ := instantiate_eq_ok h
  rw [Perm.getPlace_withPlace]
  obtain ⟨above, habove, heq⟩ := hchild
  have hlocal : (Expr.foldReplace substs (Expr.ofLocal this) place above).1 = place := by
    cases above <;> first | exact absurd heq Bool.false_ne_true | skip
    rw [Expr.foldReplace, if_pos heq]
  cases hplace : generic.getPlace <;> rw [hplace] at habove <;>
    simp only [Expr.getParent, reduceCtorEq, Option.some.injEq] at habove
  all_goals
    subst habove
    rw [Expr.foldReplace, if_neg (by simp [Expr.ofLocal, BEq.beq, Expr.eq])]
    simp only [Expr.getParent, hlocal]

/-- The instantiated permissions of a body are children of the instance. -/
theorem placesInPred_isChildOf (henv : env.ChildFootprints)
    (hfound : env.predicates name = some predicate)
    (h : placesInPred env order predicate variant place = .ok places)
    (hself : (place == place) = true) :
    ∀ perm ∈ places, perm.getPlace.IsChildOf place := by
  unfold placesInPred at h
  rw [bind_eq_ok_iff] at h
  obtain ⟨footprint, hfootprint, hmap⟩ := h
  intro perm hperm
  obtain ⟨generic, hgeneric, hinstance⟩ := exists_of_mem_mapM hmap hperm
  have hchild := henv name predicate variant footprint hfound hfootprint generic
    ((order.mem_iter 0 _ generic).mp hgeneric)
  rw [selfPlace_eq_ofLocal] at hinstance hchild
  exact ⟨place, instantiate_getParent hinstance hchild, hself⟩

/-- A fold that makes requests is about a place that can be compared. -/
theorem beq_self_of_canFold (hcan : canFold state predicate place places = true)
    (hne : places ≠ []) : (place == place) = true := by
  unfold canFold State.isProperPrefixOfSomeAcc at hcan
  rw [Bool.or_eq_true, List.any_eq_true] at hcan
  rcases hcan with ⟨other, _, habove⟩ | hempty
  · exact Expr.beq_self_of_hasPrefix (Expr.hasPrefix_of_hasProperPrefix habove)
  · simp [hne] at hempty

/-- The requests of a fold are children of the folded place. -/
theorem foldRequests_isChildOf (henv : env.ChildFootprints)
    (hsetup : FoldSetup env order state req name predicate variant places)
    (hcan : canFold state predicate req.getPlace places = true) :
    (∀ perm ∈ places, perm.getPlace.IsChildOf req.getPlace) ∧
      ∀ perm ∈ foldRequests req places, perm.getPlace.IsChildOf req.getPlace := by
  by_cases hempty : places = []
  · subst hempty
    constructor
    · intro perm hperm
      cases hperm
    · intro perm hperm
      cases hperm
  · have hchild := placesInPred_isChildOf henv hsetup.found hsetup.body
      (beq_self_of_canFold hcan hempty)
    refine ⟨hchild, ?_⟩
    intro perm hperm
    obtain ⟨inner, hinner, rfl⟩ := List.mem_map.mp hperm
    apply (hchild inner hinner).congr
    rw [Perm.setDefaultPos, Perm.getPlace_withPlace, BEq.comm, Expr.beq_setDefaultPos]
    exact (hchild inner hinner).beq_self

/-- Permissions outside of a place. -/
def SameOutside (place : Expr) (state state' : State) : Prop :=
  ∀ kind other, other.hasPrefix place = false →
    (state'.held kind).get? other = (state.held kind).get? other

theorem SameOutside.trans {first middle last : State} (h : SameOutside place first middle)
    (h' : SameOutside place middle last) :
    SameOutside place first last := by
  intro kind other hother
  rw [h' kind other hother, h kind other hother]

/-- What is kept outside of a child is kept outside of its parent. -/
theorem SameOutside.of_isChildOf (hchild : child.IsChildOf place)
    (h : SameOutside child state state') :
    SameOutside place state state' := by
  intro kind other hother
  apply h kind other
  rw [Bool.eq_false_iff] at hother ⊢
  intro habove
  exact hother (Expr.hasPrefix_trans habove hchild.hasPrefix_parent)

theorem NoPredAt.of_sameOutside (hchild : child.IsChildOf place) (hnone : NoPredAt state place)
    (h : SameOutside child state state') : NoPredAt state' place := by
  intro other hother
  rw [← hnone other hother]
  exact h .pred other (hchild.not_hasPrefix hother)

/-- The requests of a fold change nothing outside of the folded place. -/
theorem obtainEach_sameOutside
    {obtain : IterOrder → State → Perm → Except Exn (State × ObtainResult)}
    (hobtain : ∀ {order state req state' result},
      obtain order state req = .ok (state', result) →
        NoPredAbove state req.getPlace → SameOutside req.getPlace state state')
    (hchildren : ∀ req ∈ reqs, req.getPlace.IsChildOf place) (hnone : NoPredAt state place)
    (h : obtainEach obtain order state reqs = .ok (state', result)) :
    SameOutside place state state' := by
  induction reqs generalizing order state result with
  | nil =>
    cases h
    intro kind other _
    rfl
  | cons req reqs ih =>
    have hchild := hchildren req List.mem_cons_self
    unfold obtainEach at h
    rw [bind_eq_ok_iff] at h
    obtain ⟨⟨middle, first⟩, hfirst, h⟩ := h
    have hsame := hobtain hfirst (noPredAbove_of_isChildOf hchild hnone)
    cases first with
    | failure missing =>
      cases h
      exact hsame.of_isChildOf hchild
    | success actions =>
      simp only [bind_eq_ok_iff] at h
      obtain ⟨⟨last, result'⟩, hrest, h⟩ := h
      have hlast : last = state' := by
        cases result' <;> cases h <;> rfl
      subst hlast
      exact (hsame.of_isChildOf hchild).trans (ih (fun other hother => hchildren other
          (List.mem_cons_of_mem req hother))
          (hnone.of_sameOutside hchild hsame) hrest)

/-- Folding a place changes nothing outside of it. -/
theorem foldPlace_sameOutside {amount : PermAmount}
    (hchildren : ∀ perm ∈ places, perm.getPlace.IsChildOf place)
    (h : foldPlace env state place amount places = .ok state') :
    SameOutside place state state' := by
  intro kind other hother
  obtain ⟨middle, hremove, hinsert⟩ := foldPlace_eq_ok h
  have hplace : (place == other) = false := by
    rw [Bool.eq_false_iff] at hother ⊢
    intro heq
    exact hother (Expr.hasPrefix_of_beq (BEq.symm heq))
  have hbody : ∀ perm ∈ places.map fun perm => perm.withAmount amount,
      (perm.getPlace == other) = false := by
    intro perm hperm
    obtain ⟨inner, hinner, rfl⟩ := List.mem_map.mp hperm
    rw [Perm.getPlace_withAmount, Bool.eq_false_iff]
    rw [Bool.eq_false_iff] at hother
    intro heq
    apply hother
    rw [← Expr.hasPrefix_congr_left heq]
    exact (hchildren inner hinner).hasPrefix_parent
  have hinsert' := State.insertPerm_get?_of_ne
    (show middle.insertPerm (.pred place amount) = _ from hinsert) hplace kind
  rw [hinsert', State.removeAllPerms_get?_of_ne hbody hremove kind]

/-- Without a predicate above it, a request changes nothing outside of its
place. -/
theorem obtain_sameOutside (henv : env.ChildFootprints)
    (h : obtain env fuel order state req = .ok (state', result))
    (hnone : NoPredAbove state req.getPlace) :
    SameOutside req.getPlace state state' := by
  induction fuel generalizing order state state' req result with
  | zero => cases h
  | succ fuel ih =>
    have habove := (prefixPred_eq_none_iff order state req).mpr hnone
    by_cases hsat : isSatisfied state req = true
    · obtain ⟨rfl, _⟩ := obtain_of_isSatisfied hsat h
      intro kind other _
      rfl
    · rw [Bool.not_eq_true] at hsat
      rcases obtain_of_prefixPred_eq_none hsat habove h with
        ⟨_, rfl, _⟩ | ⟨hpred, fuel', hfuel, hfold⟩
      · intro kind other _
        rfl
      · cases hfuel
        obtain ⟨name, predicate, variant, places, hsetup, hcases⟩ := obtainFold_cases hfold
        rcases hcases with ⟨_, rfl, _⟩ | ⟨hcan, amount, _, hcases⟩
        · intro kind other _
          rfl
        · obtain ⟨hplaces, hchildren⟩ := foldRequests_isChildOf henv hsetup hcan
          have hat := noPredAt_of_unsatisfied hsat hpred hnone
          rcases hcases with ⟨_, heach, _⟩ | ⟨_, middle, heach, hplace, _⟩
          · exact obtainEach_sameOutside ih hchildren hat heach
          · exact (obtainEach_sameOutside ih hchildren hat heach).trans
              (foldPlace_sameOutside hplaces hplace)

/-- A request for one child keeps the predicate of another one. -/
theorem obtain_keeps_sibling (henv : env.ChildFootprints) {sibling : Expr}
    (hreq : req.getPlace.IsChildOf place) (hsibling : sibling.IsChildOf place)
    (hnone : NoPredAt state place) (h : obtain env fuel order state req = .ok (state', result))
    (hheld : state.containsPred sibling = true) :
    state'.containsPred sibling = true := by
  have habove := noPredAbove_of_isChildOf hreq hnone
  by_cases heq : (sibling == req.getPlace) = true
  · by_cases hsat : isSatisfied state req = true
    · rw [(obtain_of_isSatisfied hsat h).1]
      exact hheld
    · rw [Bool.not_eq_true] at hsat
      rcases obtain_of_prefixPred_eq_none hsat
          ((prefixPred_eq_none_iff order state req).mpr habove) h with
        ⟨_, rfl, _⟩ | ⟨hpred, _⟩
      · exact hheld
      · unfold isSatisfied at hsat
        rw [Bool.or_eq_false_iff, State.containsPerm_eq,
          (Perm.isPred_iff_kind req).mp hpred] at hsat
        unfold State.containsPred at hheld
        rw [HashMap.contains_congr _ heq] at hheld
        exact absurd hheld (Bool.eq_false_iff.mp hsat.1)
  · have hout : sibling.hasPrefix req.getPlace = false := by
      rw [Bool.eq_false_iff]
      intro habove
      exact heq (hsibling.beq_of_hasPrefix hreq habove)
    have hsame := obtain_sameOutside henv h habove .pred sibling hout
    unfold State.containsPred at hheld ⊢
    rw [HashMap.contains_eq_isSome] at hheld ⊢
    exact hsame ▸ hheld

theorem obtainEach_keeps_sibling (henv : env.ChildFootprints) {sibling : Expr}
    (hchildren : ∀ req ∈ reqs, req.getPlace.IsChildOf place) (hsibling : sibling.IsChildOf place)
    (hnone : NoPredAt state place)
    (h : obtainEach (obtain env fuel) order state reqs = .ok (state', result))
    (hheld : state.containsPred sibling = true) :
    state'.containsPred sibling = true := by
  induction reqs generalizing order state result with
  | nil =>
    cases h
    exact hheld
  | cons req reqs ih =>
    have hchild := hchildren req List.mem_cons_self
    unfold obtainEach at h
    rw [bind_eq_ok_iff] at h
    obtain ⟨⟨middle, first⟩, hfirst, h⟩ := h
    have hkept := obtain_keeps_sibling henv hchild hsibling hnone hfirst hheld
    cases first with
    | failure missing =>
      cases h
      exact hkept
    | success actions =>
      simp only [bind_eq_ok_iff] at h
      obtain ⟨⟨last, result'⟩, hrest, h⟩ := h
      have hlast : last = state' := by
        cases result' <;> cases h <;> rfl
      subst hlast
      have hsame := obtain_sameOutside henv hfirst (noPredAbove_of_isChildOf hchild hnone)
      exact ih (fun other hother => hchildren other (List.mem_cons_of_mem req hother))
        (hnone.of_sameOutside hchild hsame) hrest hkept

/-- A predicate that was not there before. -/
def NewPred (state state' : State) : Prop :=
  ∃ place, state.containsPred place = false ∧ state'.containsPred place = true

/-- A failing loop either fails at its first unsatisfied request, or has
folded something by then. -/
theorem obtainEach_failure (henv : env.ChildFootprints)
    (hchildren : ∀ req ∈ reqs, req.getPlace.IsChildOf place) (hnone : NoPredAt state place)
    (h : obtainEach (obtain env fuel) order state reqs = .ok (state', .failure perm)) :
    (∃ satisfied missing rest,
        reqs = satisfied ++ missing :: rest ∧
        (∀ req ∈ satisfied, isSatisfied state req = true) ∧
        isSatisfied state missing = false ∧
        obtain env fuel (nthOrder order satisfied.length) state missing =
          .ok (state', .failure perm)) ∨
      NewPred state state' := by
  induction reqs generalizing order state with
  | nil => cases h
  | cons req reqs ih =>
    have hchild := hchildren req List.mem_cons_self
    have hrestChildren : ∀ other ∈ reqs, other.getPlace.IsChildOf place :=
      fun other hother => hchildren other (List.mem_cons_of_mem req hother)
    unfold obtainEach at h
    rw [bind_eq_ok_iff] at h
    obtain ⟨⟨middle, first⟩, hfirst, h⟩ := h
    by_cases hsat : isSatisfied state req = true
    · obtain ⟨rfl, rfl⟩ := obtain_of_isSatisfied hsat hfirst
      simp only [bind_eq_ok_iff] at h
      obtain ⟨⟨last, result⟩, hrest, h⟩ := h
      cases result with
      | success => cases h
      | failure missing =>
        cases h
        rcases ih hrestChildren hnone hrest with
          ⟨satisfied, missing, rest, rfl, hsatisfied, hmissing, hfails⟩ |
          hnew
        · refine Or.inl ⟨req :: satisfied, missing, rest, rfl, ?_, hmissing, hfails⟩
          intro other hother
          rcases List.mem_cons.mp hother with rfl | hother
          · exact hsat
          · exact hsatisfied other hother
        · exact Or.inr hnew
    · rw [Bool.not_eq_true] at hsat
      cases first with
      | failure missing =>
        cases h
        refine Or.inl ⟨[], req, reqs, rfl, ?_, hsat, hfirst⟩
        intro other hother
        cases hother
      | success actions =>
        -- The request was folded: its predicate is new and stays.
        refine Or.inr ⟨req.getPlace, ?_⟩
        have habove := noPredAbove_of_isChildOf hchild hnone
        have hpred : req.isPred = true := by
          rcases obtain_of_prefixPred_eq_none hsat
              ((prefixPred_eq_none_iff _ state req).mpr habove) hfirst with
            ⟨_, _, hresult⟩ | ⟨hpred, _⟩
          · cases hresult
          · exact hpred
        have hkind := (Perm.isPred_iff_kind req).mp hpred
        have hmiddle : middle.containsPred req.getPlace = true := by
          rcases obtain_held hfirst hchild.beq_self with ⟨hacc, _⟩ |
            ⟨amount, hamount, _⟩
          · cases req with
            | acc => cases hpred
            | pred => cases hacc
          · rw [hkind] at hamount
            exact (HashMap.contains_iff _ _).mpr ⟨amount, hamount⟩
        constructor
        · unfold isSatisfied at hsat
          rw [Bool.or_eq_false_iff, State.containsPerm_eq, hkind] at hsat
          exact hsat.1
        · simp only [bind_eq_ok_iff] at h
          obtain ⟨⟨last, result⟩, hrest, h⟩ := h
          cases result with
          | success => cases h
          | failure missing =>
            cases h
            exact obtainEach_keeps_sibling henv hrestChildren hchild (hnone.of_sameOutside hchild
                (obtain_sameOutside henv hfirst habove)) hrest hmiddle

/-- A failure is clean, or something was folded on the way. -/
theorem obtain_failure (henv : env.ChildFootprints)
    (h : obtain env fuel order state req = .ok (state', .failure perm)) :
    FailsClean env order state req ∨ NewPred state state' := by
  induction fuel generalizing order state req with
  | zero => cases h
  | succ fuel ih =>
    rcases obtain_cases h with ⟨_, _, hresult⟩ |
      ⟨hsat, hunfold | hfold | hfail⟩
    · cases hresult
    · obtain ⟨_, _, _, _, _, _, _, _, _, _, _, _, hresult⟩ := hunfold
      cases hresult
    · obtain ⟨habove, hpred, hfold⟩ := hfold
      obtain ⟨name, predicate, variant, places, hsetup, hcases⟩ := obtainFold_cases hfold
      rcases hcases with ⟨hcan, _, _⟩ | ⟨hcan, amount, _, hcases⟩
      · exact Or.inl (FailsClean.cannotFold habove hpred hsetup hcan)
      · rcases hcases with ⟨missing, heach, hresult⟩ |
          ⟨_, _, _, _, hresult⟩
        · cases hresult
          have hat := noPredAt_of_unsatisfied hsat hpred
            ((prefixPred_eq_none_iff order state req).mp habove)
          rcases obtainEach_failure henv (foldRequests_isChildOf henv hsetup hcan).2 hat heach with
            ⟨satisfied, missing, rest, hsplit, hsatisfied, hmissing, hfails⟩ |
            hnew
          · rcases ih hfails with hclean | hnew
            · exact Or.inl (FailsClean.firstMissing habove hpred hsetup hcan
                hsplit hsatisfied hmissing hclean)
            · exact Or.inr hnew
          · exact Or.inr hnew
        · cases hresult
    · exact Or.inl (FailsClean.acc hfail.1 hfail.2.1)

end Necessary

/-- The two states have the same access and predicate permissions. -/
def SamePerms (state state' : State) : Prop :=
  ∀ kind place, (state'.held kind).get? place = (state.held kind).get? place

/-- A failed `obtain` leaves the permissions as they were if and only if it
fails at the first permission that is missing.  The condition is sufficient
for any predicates, and necessary if their bodies speak about the fields and
variants of `self`. -/
theorem obtain_failure_unchanged_iff {env : Env} {fuel : Nat}
    {order : IterOrder} {state state' : State} {req perm : Perm}
    (h : obtain env fuel order state req = .ok (state', .failure perm)) :
    (FailsClean env order state req → SamePerms state state') ∧
      (env.ChildFootprints → SamePerms state state' → FailsClean env order state req) := by
  constructor
  · intro hclean
    have hunsat : isSatisfied state req = false := by
      rw [← Bool.not_eq_true]
      intro hsat
      cases (obtain_of_isSatisfied hsat h).2
    rw [(hclean.unchanged hunsat h).1]
    intro kind place
    rfl
  · intro henv hsame
    rcases obtain_failure henv h with hclean | ⟨place, hbefore, hafter⟩
    · exact hclean
    · obtain ⟨amount, hamount⟩ := (HashMap.contains_iff _ _).mp hafter
      have hnone := (HashMap.contains_eq_false_iff _ _).mp hbefore
      have heq := hsame .pred place
      rw [show state'.held .pred = state'.pred from rfl, hamount,
        show state.held .pred = state.pred from rfl, hnone] at heq
      cases heq

namespace Witness

/-- The check of one predicate of a structure, by its list of permissions. -/
theorem structFootprint_isChildOf {predicate : StructPredicate}
    {perms : List Perm} {footprint : HashSet Perm}
    (hbody : StructPredicate.getBodyFootprint true predicate = .ok footprint)
    (hkeys : footprint.keys = perms)
    (hperms : ∀ perm ∈ perms, perm.getPlace.IsChildOf (Expr.ofLocal predicate.this))
    {variant : Option EnumVariantIndex} {footprint' : HashSet Perm}
    (h : Predicate.getBodyFootprint true (.struct predicate) variant = .ok footprint') :
    ∀ perm ∈ footprint'.keys, perm.getPlace.IsChildOf (Expr.ofLocal predicate.this) := by
  cases variant with
  | none =>
    change StructPredicate.getBodyFootprint true predicate = _ at h
    rw [hbody] at h
    cases h
    rw [hkeys]
    exact hperms
  | some variant => cases h

theorem childFootprints_env : env.ChildFootprints := by
  intro name predicate variant footprint hfound hfootprint
  change table name = some predicate at hfound
  unfold table at hfound
  split at hfound
  · cases hfound
    refine structFootprint_isChildOf rfl rfl ?_ hfootprint
    refine List.forall_mem_cons.mpr ⟨⟨_, rfl, by decide⟩, ?_⟩
    refine List.forall_mem_cons.mpr ⟨⟨_, rfl, by decide⟩, ?_⟩
    refine List.forall_mem_cons.mpr ⟨⟨_, rfl, by decide⟩, ?_⟩
    exact List.forall_mem_singleton.mpr ⟨_, rfl, by decide⟩
  · cases hfound
    refine structFootprint_isChildOf rfl rfl ?_ hfootprint
    exact List.forall_mem_singleton.mpr ⟨_, rfl, by decide⟩
  · cases hfound

/-- The field `x.f` is unfolded, and `x.g` has been moved out. -/
def halfMoved : State :=
  State.new (HashMap.ofList [(x, .write), (xf, .write),
    (xf.mkField valInt, .write), (xg, .write)]) HashMap.empty
    (HashSet.ofList [xg])

/-- Obtaining `T(x)` folds `x.f` before it finds out that `x.g` is missing. -/
theorem obtain_failure_leaves_fold :
    halfMoved.checkConsistency = true ∧
      ∃ state',
        obtain env 3 .identity halfMoved (.pred x .write) =
            .ok (state', .failure (.pred xg .write)) ∧
          ¬ SamePerms halfMoved state' := by
  refine ⟨by decide, ?_⟩
  have hobtain : ∃ state',
      obtain env 3 .identity halfMoved (.pred x .write) = .ok (state', .failure (.pred xg .write)) ∧
        state'.pred.get? xf = some .write := ⟨_, rfl, rfl⟩
  obtain ⟨state', hobtain, hfolded⟩ := hobtain
  refine ⟨state', hobtain, ?_⟩
  intro hsame
  have hnone : halfMoved.pred.get? xf = none := rfl
  have heq := hsame .pred xf
  rw [show state'.held .pred = state'.pred from rfl, hfolded,
    show halfMoved.held .pred = halfMoved.pred from rfl, hnone] at heq
  cases heq

theorem obtain_failure_unchanged_iff_halfMoved :
    ∃ state',
      obtain env 3 .identity halfMoved (.pred x .write) = .ok (state', .failure (.pred xg .write)) ∧
        (FailsClean env .identity halfMoved (.pred x .write) ↔ SamePerms halfMoved state') := by
  have hobtain : ∃ state',
      obtain env 3 .identity halfMoved (.pred x .write) =
        .ok (state', .failure (.pred xg .write)) := ⟨_, rfl⟩
  obtain ⟨state', hobtain⟩ := hobtain
  have hiff := obtain_failure_unchanged_iff hobtain
  exact ⟨state', hobtain, hiff.1, hiff.2 childFootprints_env⟩

end Witness

end Prusti.FoldUnfold

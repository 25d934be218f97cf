/-
The two implementations of unfolding: the one with which the algorithm
simulates its own actions, and the effect of an `unfold` statement.  They are
compared with each other, and with the effect of a `fold` statement.
-/
import Prusti.FoldUnfold.Semantics
import Prusti.FoldUnfold.ObtainFailure

namespace Prusti.FoldUnfold

open Prusti.Vir Prusti.Lib

variable {kind : Kind} {place : Expr} {state state' : State} {amount : PermAmount}
  {order : IterOrder} {variant : Option EnumVariantIndex} {places : List Perm}

variable {perms : List Perm}

/-- Two permissions to the same resource. -/
def Perm.SameResource (left right : Perm) : Prop :=
  left.kind = right.kind ∧ (left.getPlace == right.getPlace) = true

/-- No resource occurs twice. -/
def DistinctPerms (perms : List Perm) : Prop :=
  perms.Pairwise fun left right => ¬ left.SameResource right

/-- The permission of a list that is about a resource. -/
def findPerm (perms : List Perm) (kind : Kind) (place : Expr) : Option Perm :=
  perms.find? fun perm => perm.kind == kind && perm.getPlace == place

theorem Perm.SameResource.symm {left right : Perm}
    (h : left.SameResource right) : right.SameResource left :=
  ⟨h.1.symm, BEq.symm h.2⟩

theorem DistinctPerms.perm {perms' : List Perm} (h : DistinctPerms perms)
    (hperm : perms.Perm perms') :
    DistinctPerms perms' := by
  refine (hperm.pairwise_iff ?_).mp h
  intro left right hne hsame
  exact hne hsame.symm

theorem DistinctPerms.withAmount (h : DistinctPerms perms) (amount : PermAmount) :
    DistinctPerms (perms.map fun perm => perm.withAmount amount) := by
  refine List.pairwise_map.mpr (h.imp ?_)
  intro left right hne hsame
  apply hne
  simpa [Perm.SameResource] using hsame

theorem findPerm_cons (perm : Perm) (perms : List Perm) (kind : Kind) (place : Expr) :
    findPerm (perm :: perms) kind place =
      if perm.kind = kind ∧ (perm.getPlace == place) = true then some perm
      else findPerm perms kind place := by
  unfold findPerm
  rw [List.find?_cons]
  by_cases hkind : perm.kind = kind
  · by_cases hplace : (perm.getPlace == place) = true
    · simp [hkind, hplace]
    · simp [hkind, hplace]
  · have hfalse : (perm.kind == kind) = false := by simp [hkind]
    simp [hkind, hfalse]

theorem findPerm_eq_some {perm : Perm} (h : findPerm perms kind place = some perm) :
    perm ∈ perms ∧ perm.kind = kind ∧ (perm.getPlace == place) = true := by
  unfold findPerm at h
  have hfound := List.find?_some h
  rw [Bool.and_eq_true, beq_iff_eq] at hfound
  exact ⟨List.mem_of_find?_eq_some h, hfound⟩

theorem findPerm_eq_none_iff :
    findPerm perms kind place = none ↔
      ∀ perm ∈ perms, ¬ (perm.kind = kind ∧ (perm.getPlace == place) = true) := by
  unfold findPerm
  rw [List.find?_eq_none]
  simp

theorem findPerm_isSome_of_mem {perm : Perm} (hmem : perm ∈ perms)
    (h : perm.kind = kind ∧ (perm.getPlace == place) = true) :
    (findPerm perms kind place).isSome = true := by
  rw [Option.isSome_iff_ne_none]
  intro hnone
  exact findPerm_eq_none_iff.mp hnone perm hmem h

theorem findPerm_eq_none_of_perm {perms' : List Perm} (hperm : perms.Perm perms')
    (h : findPerm perms kind place = none) : findPerm perms' kind place = none :=
  findPerm_eq_none_iff.mpr fun perm hmem =>
    findPerm_eq_none_iff.mp h perm (hperm.mem_iff.mpr hmem)

section Insert

/-- What is at a resource after an insertion of a permission. -/
theorem State.insertPerm_get? {perm : Perm} (h : state.insertPerm perm = .ok state')
    (hnew : state.containsPerm perm = false) (kind : Kind) (place : Expr) :
    (state'.held kind).get? place =
      if perm.kind = kind ∧ (perm.getPlace == place) = true
      then some perm.getPermAmount else (state.held kind).get? place := by
  obtain ⟨map, hmap, rfl⟩ := State.insertPerm_eq_ok_iff.mp h
  by_cases hkind : perm.kind = kind
  · subst hkind
    rw [State.held_setHeld]
    by_cases hplace : (perm.getPlace == place) = true
    · rw [if_pos ⟨rfl, hplace⟩]
      rw [State.containsPerm_eq, HashMap.contains_congr _ hplace] at hnew
      have hnone := (HashMap.contains_eq_false_iff _ _).mp hnew
      rcases insertAmount_get?_self hmap hplace with ⟨_, hself⟩ |
        ⟨old, _, hold, _⟩
      · exact hself
      · rw [hnone] at hold
        cases hold
    · rw [if_neg (fun hboth => hplace hboth.2)]
      exact insertAmount_get?_of_ne hmap (by simpa using hplace)
  · rw [if_neg (fun hboth => hkind hboth.1), State.held_setHeld_of_ne state map hkind]

theorem State.insertPerm_of_new {perm : Perm} (hnew : state.containsPerm perm = false) :
    ∃ state', state.insertPerm perm = .ok state' := by
  rw [State.containsPerm_eq] at hnew
  have hnone := (HashMap.contains_eq_false_iff _ _).mp hnew
  let map := (state.held perm.kind).insert perm.getPlace perm.getPermAmount
  refine ⟨state.setHeld perm.kind map, State.insertPerm_eq_ok_iff.mpr ⟨map, ?_, rfl⟩⟩
  unfold insertAmount
  rw [hnone]
  rfl

/-- The moved places and the frames of two states agree. -/
def SameRest (state state' : State) : Prop :=
  state'.moved = state.moved ∧ state'.framingStack = state.framingStack

theorem sameRest_setHeld (state : State) (kind : Kind) (map : HashMap Expr PermAmount) :
    SameRest state (state.setHeld kind map) := by
  cases kind <;> exact ⟨rfl, rfl⟩

/-- Inserting permissions that are new and distinct succeeds. -/
theorem State.insertAllPerms_of_new {perms : List Perm} (hdistinct : DistinctPerms perms)
    (hnew : ∀ perm ∈ perms, state.containsPerm perm = false) :
    ∃ state', state.insertAllPerms perms = .ok state' ∧
      SameRest state state' ∧
      ∀ kind place, (state'.held kind).get? place =
        match findPerm perms kind place with
        | some perm => some perm.getPermAmount
        | none => (state.held kind).get? place := by
  induction perms generalizing state with
  | nil => exact ⟨state, rfl, ⟨rfl, rfl⟩, fun _ _ => rfl⟩
  | cons perm perms ih =>
    rw [DistinctPerms, List.pairwise_cons] at hdistinct
    have hfirst := hnew perm List.mem_cons_self
    obtain ⟨middle, hmiddle⟩ := State.insertPerm_of_new hfirst
    have hget := State.insertPerm_get? hmiddle hfirst
    have hrest : ∀ other ∈ perms, middle.containsPerm other = false := by
      intro other hother
      have hne : ¬ (perm.kind = other.kind ∧ (perm.getPlace == other.getPlace) = true) :=
        hdistinct.1 other hother
      rw [State.containsPerm_eq, HashMap.contains_eq_false_iff, hget, if_neg hne]
      have := hnew other (List.mem_cons_of_mem perm hother)
      rw [State.containsPerm_eq] at this
      exact (HashMap.contains_eq_false_iff _ _).mp this
    obtain ⟨last, hlast, hsame, hlastGet⟩ := ih hdistinct.2 hrest
    refine ⟨last, ?_, ?_, ?_⟩
    · exact State.insertAllPerms_cons_eq_ok_iff.mpr ⟨middle, hmiddle, hlast⟩
    · obtain ⟨map, _, rfl⟩ := State.insertPerm_eq_ok_iff.mp hmiddle
      have hset := sameRest_setHeld state perm.kind map
      exact ⟨hsame.1.trans hset.1, hsame.2.trans hset.2⟩
    · intro kind place
      rw [hlastGet, findPerm_cons, hget]
      by_cases hself : perm.kind = kind ∧ (perm.getPlace == place) = true
      · have hnone : findPerm perms kind place = none := by
          rw [findPerm_eq_none_iff]
          intro other hother hboth
          exact hdistinct.1 other hother ⟨hself.1.trans hboth.1.symm,
            BEq.trans hself.2 (BEq.symm hboth.2)⟩
        rw [if_pos hself, if_pos hself, hnone]
      · rw [if_neg hself, if_neg hself]

/-- A resource that takes no more of an amount occurs in no insertion. -/
theorem State.not_mem_of_insertAllPerms {held : PermAmount} (hadd : held.add amount = none)
    {perms : List Perm} (hamount : ∀ perm ∈ perms, perm.getPermAmount = amount)
    (hheld : (state.held kind).get? place = some held)
    (h : state.insertAllPerms perms = .ok state') :
    ∀ perm ∈ perms, ¬ (perm.kind = kind ∧ (perm.getPlace == place) = true) := by
  induction perms generalizing state with
  | nil =>
    intro perm hperm
    cases hperm
  | cons perm perms ih =>
    obtain ⟨middle, hmiddle, hrest⟩ := State.insertAllPerms_cons_eq_ok_iff.mp h
    obtain ⟨map, hmap, rfl⟩ := State.insertPerm_eq_ok_iff.mp hmiddle
    have hfirst : ¬ (perm.kind = kind ∧ (perm.getPlace == place) = true) := by
      rintro ⟨rfl, hplace⟩
      rcases insertAmount_get?_self hmap hplace with ⟨hnone, _⟩ |
        ⟨old, sum, hold, hsum, _⟩
      · rw [hheld] at hnone
        cases hnone
      · rw [hheld] at hold
        cases hold
        rw [hamount perm List.mem_cons_self, hadd] at hsum
        cases hsum
    have hmiddleHeld : ((state.setHeld perm.kind map).held kind).get? place = some held := by
      rw [← hheld]
      by_cases hkind : perm.kind = kind
      · subst hkind
        rw [State.held_setHeld]
        apply insertAmount_get?_of_ne hmap
        simpa using fun hplace => hfirst ⟨rfl, hplace⟩
      · rw [State.held_setHeld_of_ne state map hkind]
    intro other hother
    rcases List.mem_cons.mp hother with rfl | hother
    · exact hfirst
    · exact ih (fun other hother => hamount other
        (List.mem_cons_of_mem perm hother)) hmiddleHeld hrest other hother

/-- Permissions of one amount can only be inserted if they are distinct. -/
theorem State.distinct_of_insertAllPerms {perms : List Perm}
    (hamount : ∀ perm ∈ perms, perm.getPermAmount = amount)
    (h : state.insertAllPerms perms = .ok state') : DistinctPerms perms := by
  induction perms generalizing state with
  | nil => exact List.Pairwise.nil
  | cons perm perms ih =>
    obtain ⟨middle, hmiddle, hrest⟩ := State.insertAllPerms_cons_eq_ok_iff.mp h
    have hrestAmount : ∀ other ∈ perms, other.getPermAmount = amount :=
      fun other hother => hamount other (List.mem_cons_of_mem perm hother)
    refine List.pairwise_cons.mpr ⟨?_, ih hrestAmount hrest⟩
    intro other hother hsame
    obtain ⟨map, hmap, rfl⟩ := State.insertPerm_eq_ok_iff.mp hmiddle
    have hself : ∃ held, map.get? other.getPlace = some held ∧ held.add amount = none := by
      rcases insertAmount_get?_self hmap hsame.2 with ⟨_, hnew⟩ |
        ⟨old, sum, _, hsum, hnew⟩
      · rw [hamount perm List.mem_cons_self] at hnew
        exact ⟨amount, hnew, PermAmount.add_self amount⟩
      · exact ⟨sum, hnew, PermAmount.add_add_eq_none hsum amount⟩
    obtain ⟨held, hheld, hadd⟩ := hself
    rw [← State.held_setHeld state perm.kind map] at hheld
    exact State.not_mem_of_insertAllPerms hadd hrestAmount hheld hrest other
      hother ⟨hsame.1.symm, BEq.trans (BEq.symm hsame.2) hsame.2⟩

end Insert

section Remove

/-- Taking exactly the amount that is held removes the entry. -/
theorem State.removePerm_of_held {perm : Perm}
    (hheld : (state.held perm.kind).get? perm.getPlace = some perm.getPermAmount) :
    state.removePerm perm = .ok (state.setHeld perm.kind
      ((state.held perm.kind).erase perm.getPlace)) := by
  cases perm with
  | acc place amount =>
    change state.acc.get? place = some amount at hheld
    change (removeAmount state.acc place amount _ >>= _) = _
    unfold removeAmount
    rw [hheld]
    simp only [beq_self_eq_true, if_true]
    rfl
  | pred place amount =>
    change state.pred.get? place = some amount at hheld
    change (removeAmount state.pred place amount _ >>= _) = _
    unfold removeAmount
    rw [hheld]
    simp only [beq_self_eq_true, if_true]
    rfl

theorem State.setHeld_erase_get? (state : State) (kind other : Kind) (key place : Expr) :
    ((state.setHeld kind ((state.held kind).erase key)).held other).get? place =
      if kind = other ∧ (key == place) = true then none
      else (state.held other).get? place := by
  by_cases hkind : kind = other
  · subst hkind
    rw [State.held_setHeld, HashMap.get?_erase]
    simp
  · rw [State.held_setHeld_of_ne state _ hkind, if_neg (fun hboth => hkind hboth.1)]

/-- Removing distinct permissions that are held with their own amounts. -/
theorem State.removeAllPerms_of_held {perms : List Perm} (hdistinct : DistinctPerms perms)
    (hheld : ∀ perm ∈ perms, (state.held perm.kind).get? perm.getPlace = some perm.getPermAmount) :
    ∃ state', state.removeAllPerms perms = .ok state' ∧
      SameRest state state' ∧
      ∀ kind place, (state'.held kind).get? place =
        match findPerm perms kind place with
        | some _ => none
        | none => (state.held kind).get? place := by
  induction perms generalizing state with
  | nil => exact ⟨state, rfl, ⟨rfl, rfl⟩, fun _ _ => rfl⟩
  | cons perm perms ih =>
    rw [DistinctPerms, List.pairwise_cons] at hdistinct
    have hfirst := State.removePerm_of_held (hheld perm List.mem_cons_self)
    have hrest : ∀ other ∈ perms,
        ((state.setHeld perm.kind ((state.held perm.kind).erase
          perm.getPlace)).held other.kind).get? other.getPlace = some other.getPermAmount := by
      intro other hother
      have hne : ¬ (perm.kind = other.kind ∧ (perm.getPlace == other.getPlace) = true) :=
        hdistinct.1 other hother
      rw [State.setHeld_erase_get?, if_neg hne]
      exact hheld other (List.mem_cons_of_mem perm hother)
    obtain ⟨last, hlast, hsame, hlastGet⟩ := ih hdistinct.2 hrest
    refine ⟨last, ?_, ?_, ?_⟩
    · exact State.removeAllPerms_cons_eq_ok_iff.mpr ⟨_, hfirst, hlast⟩
    · have hset := sameRest_setHeld state perm.kind ((state.held perm.kind).erase perm.getPlace)
      exact ⟨hsame.1.trans hset.1, hsame.2.trans hset.2⟩
    · intro kind place
      rw [hlastGet, findPerm_cons, State.setHeld_erase_get?]
      by_cases hself : perm.kind = kind ∧ (perm.getPlace == place) = true
      · rw [if_pos hself, if_pos hself]
        cases findPerm perms kind place <;> rfl
      · rw [if_neg hself, if_neg hself]

end Remove

/-- Unfolding a place by the algorithm and by a statement gives the same
permissions, and folding it again gives back those of the start. -/
def UnfoldsAgree (env : Env) (order order' order'' : IterOrder)
    (state : State) (place : Expr) (amount : PermAmount)
    (variant : Option EnumVariantIndex) : Prop :=
  ∃ unfolded action applied refolded,
    unfold env order state place amount variant = .ok (unfolded, action) ∧
      applyUnfold env order' [place] amount variant state = .ok applied ∧
      SamePerms unfolded applied ∧
      applyFold env order'' [place] amount variant applied = .ok refolded ∧
      SamePerms state refolded

/-- The body can be unfolded at the place, and its permissions come with the
amount of the unfold. -/
structure UnfoldsAlike (env : Env) (state : State) (place : Expr)
    (amount : PermAmount) (variant : Option EnumVariantIndex) (places : List Perm) : Prop where
  body : ∃ name predicate, place.typedRefName = some name ∧
    env.predicates name = some predicate ∧
    placesInPred env .identity predicate variant place = .ok places
  valid : amount.isValidForSpecs = true
  isPlace : env.debug = true → place.isPlace = true
  notMoved : state.isPrefixOfSomeMoved place = false
  /-- The footprint is not scaled by the statement. -/
  sameAmount : ∀ perm ∈ places, perm.getPermAmount = amount
  isNew : ∀ perm ∈ places, state.containsPerm perm = false
  comparable : ∀ perm ∈ places, (perm.getPlace == perm.getPlace) = true
  distinct : DistinctPerms places

section Agree

variable {env : Env}

variable {perm : Perm} {perms : List Perm}

theorem withAmount_amount (places : List Perm) (amount : PermAmount) :
    ∀ perm ∈ places.map fun perm => perm.withAmount amount, perm.getPermAmount = amount := by
  intro perm hperm
  obtain ⟨inner, _, rfl⟩ := List.mem_map.mp hperm
  exact inner.getPermAmount_withAmount amount

theorem debugAssert_eq_ok_iff (condition : Bool) (result : Unit) :
    env.debugAssert condition = .ok result ↔ (env.debug = true → condition = true) := by
  unfold Env.debugAssert
  rw [assert_eq_ok_iff, Bool.or_eq_true, Bool.not_eq_true']
  cases env.debug <;> simp

/-- What the effect of an `unfold` statement is. -/
theorem applyUnfold_eq_ok_iff :
    applyUnfold env order [place] amount variant state = .ok state' ↔
      (env.debug = true → place.isPlace = true) ∧
        state.containsPred place = true ∧
        state.isPrefixOfSomeMoved place = false ∧
        ∃ name, place.typedRefName = some name ∧
        ∃ predicate, env.predicates name = some predicate ∧
        ∃ places, placesInPred env order predicate variant place = .ok places ∧
          (∀ perm ∈ places, state.containsPerm perm = false) ∧
        ∃ middle, state.removePred place amount = .ok middle ∧
          middle.insertAllPerms places = .ok state' := by
  unfold applyUnfold
  simp only [singleArg, bind_eq_ok_iff, Except.ok.injEq, exists_eq_left',
    assert_eq_ok_iff, debugAssert_eq_ok_iff, orPanic_eq_ok_iff,
    List.all_eq_true, Bool.not_eq_true', exists_const]

theorem initPermAmount_eq_some_iff {perm' : Perm} :
    perm.initPermAmount amount = some perm' ↔
      amount.isValidForSpecs = true ∧ perm.getPermAmount ≠ .remaining ∧
        perm' = perm.withAmount amount := by
  unfold Perm.initPermAmount
  split
  · next hvalid =>
      rw [Bool.and_eq_true, bne_iff_ne] at hvalid
      simp [hvalid, eq_comm]
  · next hvalid =>
      rw [Bool.and_eq_true, bne_iff_ne] at hvalid
      constructor
      · intro h
        cases h
      · intro h
        exact absurd ⟨h.1, h.2.1⟩ hvalid

/-- What the effect of a `fold` statement is. -/
theorem applyFold_eq_ok_iff :
    applyFold env order [place] amount variant state = .ok state' ↔
      (env.debug = true → place.isPlace = true) ∧
        state.containsPred place = false ∧
        state.isPrefixOfSomeMoved place = false ∧
        ∃ name, place.typedRefName = some name ∧
        ∃ predicate, env.predicates name = some predicate ∧
        ∃ places, placesInPred env order predicate variant place = .ok places ∧
        ∃ scaled, (places.mapM fun perm => orPanic (perm.initPermAmount amount)) = .ok scaled ∧
        ∃ middle, state.removeAllPerms scaled = .ok middle ∧
          middle.insertPred place amount = .ok state' := by
  unfold applyFold
  simp only [singleArg, bind_eq_ok_iff, Except.ok.injEq, exists_eq_left',
    assert_eq_ok_iff, debugAssert_eq_ok_iff, orPanic_eq_ok_iff, Bool.not_eq_true', exists_const]

theorem mapM_orPanic_of_same {f : Perm → Option Perm} (h : ∀ perm ∈ places, f perm = some perm) :
    (places.mapM fun perm => orPanic (f perm)) = .ok places := by
  rw [mapM_eq_ok_iff, List.forall₂_same]
  exact fun perm hperm => (orPanic_eq_ok_iff _ _).mpr (h perm hperm)

theorem initPermAmount_of_same (hvalid : amount.isValidForSpecs = true)
    (hsame : perm.getPermAmount = amount) :
    perm.initPermAmount amount = some perm := by
  rw [initPermAmount_eq_some_iff]
  refine ⟨hvalid, ?_, ?_⟩
  · rintro hremaining
    rw [← hsame, hremaining] at hvalid
    cases hvalid
  · rw [← hsame, perm.withAmount_getPermAmount]

theorem updatePermAmount_of_same (hvalid : amount.isValidForSpecs = true)
    (hsame : perm.getPermAmount = amount) :
    perm.updatePermAmount amount = some perm := by
  unfold Perm.updatePermAmount
  rw [hsame, hvalid, ← hsame, perm.withAmount_getPermAmount]
  rfl

/-- The state with a predicate taken out. -/
theorem removePred_of_held (hheld : state.pred.get? place = some amount) :
    state.removePred place amount = .ok { state with pred := state.pred.erase place } := by
  have hperm : (state.held (Perm.pred place amount).kind).get?
      (Perm.pred place amount).getPlace = some amount := hheld
  exact State.removePerm_of_held hperm

/-- The state without the predicate that is unfolded. -/
def withoutPred (state : State) (place : Expr) : State :=
  { state with pred := state.pred.erase place }

theorem withoutPred_get? (state : State) (place : Expr) (kind : Kind) (other : Expr) :
    ((withoutPred state place).held kind).get? other =
      if kind = .pred ∧ (place == other) = true then none
      else (state.held kind).get? other := by
  have h := State.setHeld_erase_get? state .pred kind place other
  simp only [eq_comm (a := Kind.pred)] at h
  exact h

theorem withoutPred_containsPerm (hnew : state.containsPerm perm = false) (place : Expr) :
    (withoutPred state place).containsPerm perm = false := by
  rw [State.containsPerm_eq, HashMap.contains_eq_false_iff] at hnew ⊢
  rw [withoutPred_get?, hnew]
  split <;> rfl

/-- Inserting distinct new permissions of one amount, in any order. -/
theorem insertBody (hperm : perms.Perm places) (hdistinct : DistinctPerms places)
    (hnew : ∀ perm ∈ places, state.containsPerm perm = false)
    (hsame : ∀ perm ∈ places, perm.getPermAmount = amount) :
    ∃ state', state.insertAllPerms perms = .ok state' ∧
      SameRest state state' ∧
      ∀ kind place, (state'.held kind).get? place =
        if (findPerm places kind place).isSome then some amount
        else (state.held kind).get? place := by
  have hnew' : ∀ perm ∈ perms, state.containsPerm perm = false :=
    fun perm hmem => hnew perm (hperm.mem_iff.mp hmem)
  obtain ⟨state', hinsert, hrest, hget⟩ :=
    State.insertAllPerms_of_new (hdistinct.perm hperm.symm) hnew'
  refine ⟨state', hinsert, hrest, ?_⟩
  intro kind place
  rw [hget]
  cases hfound : findPerm perms kind place with
  | some perm =>
    obtain ⟨hmem, hresource⟩ := findPerm_eq_some hfound
    rw [if_pos (findPerm_isSome_of_mem (hperm.mem_iff.mp hmem) hresource)]
    exact congrArg some (hsame perm (hperm.mem_iff.mp hmem))
  | none =>
    rw [findPerm_eq_none_of_perm hperm hfound]
    rfl

theorem beq_self_of_get? {map : HashMap Expr PermAmount} (h : map.get? place = some amount) :
    (place == place) = true := by
  obtain ⟨key, _, heq⟩ := HashMap.exists_key_of_get? h
  exact BEq.trans (BEq.symm heq) heq

/-- A place in the body of a predicate that is held is not the place of the
predicate itself. -/
theorem findPerm_pred_eq_none (hheld : state.pred.get? place = some amount)
    (hnew : ∀ perm ∈ places, state.containsPerm perm = false) :
    findPerm places .pred place = none := by
  rw [findPerm_eq_none_iff]
  rintro perm hmem ⟨hkind, hplace⟩
  have hnone := hnew perm hmem
  rw [State.containsPerm_eq, HashMap.contains_congr _ hplace, hkind,
    HashMap.contains_eq_false_iff] at hnone
  change state.pred.get? place = none at hnone
  rw [hheld] at hnone
  cases hnone

/-- The condition is sufficient. -/
theorem UnfoldsAlike.agree (h : UnfoldsAlike env state place amount variant places)
    (hheld : state.pred.get? place = some amount) (order order' order'' : IterOrder) :
    UnfoldsAgree env order order' order'' state place amount variant := by
  obtain ⟨name, predicate, hname, hpredicate, hplaces⟩ := h.body
  have hself := beq_self_of_get? hheld
  have hcontains : state.containsPred place = true := (HashMap.contains_iff _ _).mpr ⟨amount, hheld⟩
  have hnew : ∀ perm ∈ places,
      (withoutPred state place).containsPerm perm = false :=
    fun perm hmem => withoutPred_containsPerm (h.isNew perm hmem) place
  -- The unfold of the algorithm.
  obtain ⟨first, hfirst, hfirstPerm⟩ := placesInPred_perm hplaces order
  obtain ⟨unfolded, hunfolded, _, hunfoldedGet⟩ :=
    insertBody hfirstPerm.symm h.distinct hnew h.sameAmount
  have hunfold : unfold env order state place amount variant =
      .ok (unfolded, .unfold name [place] amount variant) := by
    unfold FoldUnfold.unfold
    simp only [bind_eq_ok_iff, orPanic_eq_ok_iff, assert_eq_ok_iff]
    exact ⟨(), hcontains, (), h.valid, name, hname, predicate,
      (getPredicate_eq_ok_iff env name predicate).mpr hpredicate, first, hfirst,
      first, mapM_orPanic_of_same (fun perm hmem => updatePermAmount_of_same h.valid
        (h.sameAmount perm (hfirstPerm.mem_iff.mpr hmem))),
      withoutPred state place, removePred_of_held hheld, unfolded, hunfolded, rfl⟩
  -- The effect of the statement.
  obtain ⟨second, hsecond, hsecondPerm⟩ := placesInPred_perm hplaces order'
  obtain ⟨applied, happlied, happliedRest, happliedGet⟩ :=
    insertBody hsecondPerm.symm h.distinct hnew h.sameAmount
  have happly : applyUnfold env order' [place] amount variant state = .ok applied := by
    rw [applyUnfold_eq_ok_iff]
    exact ⟨h.isPlace, hcontains, h.notMoved, name, hname, predicate, hpredicate, second,
      hsecond, fun perm hmem => h.isNew perm (hsecondPerm.mem_iff.mpr hmem),
      withoutPred state place, removePred_of_held hheld, happlied⟩
  -- Folding again.
  obtain ⟨third, hthird, hthirdPerm⟩ := placesInPred_perm hplaces order''
  have hthirdSame : ∀ perm ∈ third, perm.getPermAmount = amount :=
    fun perm hmem => h.sameAmount perm (hthirdPerm.mem_iff.mpr hmem)
  have hthirdHeld : ∀ perm ∈ third,
      (applied.held perm.kind).get? perm.getPlace = some perm.getPermAmount := by
    intro perm hmem
    have hplace := hthirdPerm.mem_iff.mpr hmem
    rw [happliedGet, if_pos (findPerm_isSome_of_mem hplace
      ⟨rfl, h.comparable perm hplace⟩), hthirdSame perm hmem]
  obtain ⟨middle, hmiddle, _, hmiddleGet⟩ := State.removeAllPerms_of_held
    (h.distinct.perm hthirdPerm) hthirdHeld
  have hnotPred : (applied.held .pred).get? place = none := by
    rw [happliedGet, findPerm_pred_eq_none hheld h.isNew, withoutPred_get?,
      if_pos (And.intro rfl hself)]
    rfl
  have hnotPred' : middle.containsPerm (.pred place amount) = false := by
    rw [State.containsPerm_eq, HashMap.contains_eq_false_iff, hmiddleGet]
    change (match findPerm third .pred place with
      | some _ => none
      | none => (applied.held .pred).get? place) = none
    rw [hnotPred]
    split <;> rfl
  obtain ⟨refolded, hrefolded⟩ := State.insertPerm_of_new hnotPred'
  have hrefoldedGet : ∀ kind other, (refolded.held kind).get? other =
      if Kind.pred = kind ∧ (place == other) = true then some amount
      else (middle.held kind).get? other :=
    State.insertPerm_get? hrefolded hnotPred'
  have hfold : applyFold env order'' [place] amount variant applied = .ok refolded := by
    rw [applyFold_eq_ok_iff]
    refine ⟨h.isPlace, (HashMap.contains_eq_false_iff _ _).mpr hnotPred, ?_,
      name, hname, predicate, hpredicate, third, hthird, third,
      mapM_orPanic_of_same fun perm hmem => initPermAmount_of_same h.valid (hthirdSame perm hmem),
      middle, hmiddle, hrefolded⟩
    have hmoved : applied.moved = state.moved := happliedRest.1
    unfold State.isPrefixOfSomeMoved
    rw [hmoved]
    exact h.notMoved
  refine ⟨unfolded, _, applied, refolded, hunfold, happly, ?_, hfold, ?_⟩
  · intro kind other
    rw [happliedGet, hunfoldedGet]
  · intro kind other
    rw [hrefoldedGet]
    by_cases hpred : Kind.pred = kind ∧ (place == other) = true
    · obtain ⟨rfl, heq⟩ := hpred
      rw [if_pos (And.intro rfl heq)]
      change some amount = state.pred.get? other
      rw [← HashMap.get?_congr _ heq, hheld]
    · rw [if_neg hpred, hmiddleGet]
      cases hfound : findPerm third kind other with
      | some perm =>
        obtain ⟨hmem, rfl, hplace⟩ := findPerm_eq_some hfound
        have hnone := h.isNew perm (hthirdPerm.mem_iff.mpr hmem)
        rw [State.containsPerm_eq, HashMap.contains_congr _ hplace,
          HashMap.contains_eq_false_iff] at hnone
        exact hnone.symm
      | none =>
        have hnone := findPerm_eq_none_of_perm hthirdPerm.symm hfound
        have hne : ¬ (kind = Kind.pred ∧ (place == other) = true) :=
          fun hboth => hpred ⟨hboth.1.symm, hboth.2⟩
        simp only
        rw [happliedGet, hnone, withoutPred_get?, if_neg hne]
        rfl

theorem DistinctPerms.eq_of_sameResource (h : DistinctPerms perms) {left right : Perm}
    (hleft : left ∈ perms) (hright : right ∈ perms) (hsame : left.SameResource right) :
    left = right := by
  by_contra hne
  have : Std.Symm fun left right : Perm => ¬ left.SameResource right :=
    ⟨fun _ _ hnot hsame => hnot hsame.symm⟩
  exact List.Pairwise.forall h hleft hright hne hsame

/-- Only permissions to comparable places can be removed. -/
theorem State.beq_self_of_removeAllPerms (h : state.removeAllPerms perms = .ok state') :
    ∀ perm ∈ perms, (perm.getPlace == perm.getPlace) = true := by
  induction perms generalizing state with
  | nil =>
    intro perm hperm
    cases hperm
  | cons perm perms ih =>
    obtain ⟨middle, hmiddle, hrest⟩ := State.removeAllPerms_cons_eq_ok_iff.mp h
    intro other hother
    rcases List.mem_cons.mp hother with rfl | hother
    · obtain ⟨map, missing, hmap, _⟩ := State.removePerm_eq_ok hmiddle
      unfold removeAmount at hmap
      split at hmap
      · next old hold => exact beq_self_of_get? hold
      · cases hmap
    · exact ih hrest other hother

theorem initPermAmount_mapM_eq {scaled : List Perm}
    (h : (places.mapM fun perm => orPanic (perm.initPermAmount amount)) = .ok scaled) :
    scaled = places.map fun perm => perm.withAmount amount := by
  rw [mapM_eq_ok_iff] at h
  induction h with
  | nil => rfl
  | cons hperm _ ih =>
    rw [orPanic_eq_ok_iff, initPermAmount_eq_some_iff] at hperm
    rw [List.map_cons, ← ih, hperm.2.2]

/-- The condition is necessary. -/
theorem UnfoldsAgree.alike {order' order'' : IterOrder}
    (h : UnfoldsAgree env order order' order'' state place amount variant)
    (hheld : state.pred.get? place = some amount) :
    ∃ places, UnfoldsAlike env state place amount variant places := by
  obtain ⟨unfolded, action, applied, refolded, hunfold, happly, hsame, hfold, _⟩ := h
  obtain ⟨name, predicate, first, middle, hname, hpredicate, hfirst, hvalid,
    hremove, hunfolded, _⟩ := unfold_eq_ok hunfold
  obtain ⟨hplace, _, hmoved, name', hname', predicate', hpredicate', second, hsecond,
    hsecondNew, middle', hremove', happlied⟩ := applyUnfold_eq_ok_iff.mp happly
  obtain ⟨_, _, _, name'', hname'', predicate'', hpredicate'', third, hthird, scaled,
    hscaled, last, hlast, _⟩ := applyFold_eq_ok_iff.mp hfold
  -- The three runs look at the same predicate and remove it from the state.
  rw [hname] at hname' hname''
  cases hname'
  cases hname''
  rw [hpredicate] at hpredicate' hpredicate''
  cases hpredicate'
  cases hpredicate''
  rw [removePred_of_held hheld] at hremove hremove'
  cases hremove
  cases hremove'
  obtain ⟨places, hplaces, hfirstPerm⟩ := placesInPred_perm hfirst .identity
  obtain ⟨second', hsecond', hsecondPerm⟩ := placesInPred_perm hplaces order'
  rw [hsecond] at hsecond'
  cases hsecond'
  obtain ⟨third', hthird', hthirdPerm⟩ := placesInPred_perm hplaces order''
  rw [hthird] at hthird'
  cases hthird'
  have hcomparable : ∀ perm ∈ places, (perm.getPlace == perm.getPlace) = true := by
    intro perm hmem
    rw [initPermAmount_mapM_eq hscaled] at hlast
    have hself := State.beq_self_of_removeAllPerms hlast (perm.withAmount amount)
      (List.mem_map_of_mem (hthirdPerm.mem_iff.mp hmem))
    rw [Perm.getPlace_withAmount] at hself
    exact hself
  have hdistinct : DistinctPerms places := by
    have hscaledDistinct :=
      State.distinct_of_insertAllPerms (withAmount_amount first amount) hunfolded
    refine DistinctPerms.perm ?_ hfirstPerm
    refine (List.pairwise_map.mp hscaledDistinct).imp ?_
    intro left right hne hresource
    apply hne
    simpa [Perm.SameResource] using hresource
  have hnew : ∀ perm ∈ places, state.containsPerm perm = false :=
    fun perm hmem => hsecondNew perm (hsecondPerm.mem_iff.mp hmem)
  refine ⟨places, ⟨name, predicate, hname, hpredicate, hplaces⟩, hvalid, hplace,
    hmoved, ?_, hnew, hcomparable, hdistinct⟩
  intro perm hmem
  -- The algorithm leaves the amount of the unfold at the place.
  have hleft : (unfolded.held perm.kind).get? perm.getPlace = some amount := by
    have hscaledPerm : (first.map fun perm => perm.withAmount amount).Perm
        (places.map fun perm => perm.withAmount amount) := hfirstPerm.map _
    have hscaledNew : ∀ other ∈ places.map fun perm => perm.withAmount amount,
        (withoutPred state place).containsPerm other = false := by
      intro other hother
      obtain ⟨inner, hinner, rfl⟩ := List.mem_map.mp hother
      apply withoutPred_containsPerm
      rw [State.containsPerm_eq, Perm.kind_withAmount,
        Perm.getPlace_withAmount, ← State.containsPerm_eq]
      exact hnew inner hinner
    obtain ⟨unfolded', hunfolded', _, hget⟩ := insertBody hscaledPerm
      (hdistinct.withAmount amount) hscaledNew (withAmount_amount places amount)
    have hsameState : unfolded' = unfolded := Except.ok.inj (hunfolded'.symm.trans hunfolded)
    subst hsameState
    have hscaledMem : perm.withAmount amount ∈ places.map fun perm => perm.withAmount amount :=
      List.mem_map.mpr ⟨perm, hmem, rfl⟩
    rw [hget, if_pos (findPerm_isSome_of_mem hscaledMem ⟨Perm.kind_withAmount .., by
      rw [Perm.getPlace_withAmount]
      exact hcomparable perm hmem⟩)]
  -- The statement leaves the amount of the footprint.
  have hright : (applied.held perm.kind).get? perm.getPlace = some perm.getPermAmount := by
    have hsecondNew' : ∀ other ∈ second,
        (withoutPred state place).containsPerm other = false :=
      fun other hother => withoutPred_containsPerm (hsecondNew other hother) place
    obtain ⟨applied', happlied', _, hget⟩ := State.insertAllPerms_of_new
      (hdistinct.perm hsecondPerm) hsecondNew'
    have hsameState : applied' = applied := Except.ok.inj (happlied'.symm.trans happlied)
    subst hsameState
    rw [hget]
    have hmem' := hsecondPerm.mem_iff.mp hmem
    cases hfound : findPerm second perm.kind perm.getPlace with
    | none => exact absurd ⟨rfl, hcomparable perm hmem⟩ (findPerm_eq_none_iff.mp hfound perm hmem')
    | some found =>
      obtain ⟨hfoundMem, hkind, hfoundPlace⟩ := findPerm_eq_some hfound
      rw [(hdistinct.perm hsecondPerm).eq_of_sameResource hfoundMem hmem' ⟨hkind, hfoundPlace⟩]
  have heq := hsame perm.kind perm.getPlace
  rw [hleft, hright] at heq
  exact Option.some.inj heq

end Agree

/-- The two implementations of unfolding agree, and folding is their inverse,
exactly when the body comes with the amount of the unfold. -/
theorem unfoldsAgree_iff {env : Env} {state : State} {place : Expr}
    {amount : PermAmount} (hheld : state.pred.get? place = some amount)
    (variant : Option EnumVariantIndex) (order order' order'' : IterOrder) :
    UnfoldsAgree env order order' order'' state place amount variant ↔
      ∃ places, UnfoldsAlike env state place amount variant places := by
  constructor
  · intro hagree
    exact hagree.alike hheld
  · rintro ⟨places, halike⟩
    exact halike.agree hheld order order' order''

namespace Witness

/-- A shared borrow holds the predicate of `x` with a `read` permission. -/
def readFolded : State :=
  State.new (HashMap.ofList [(x, .write)]) (HashMap.ofList [(x, .read)]) HashMap.empty

theorem unfoldsAgree_iff_folded :
    folded.pred.get? x = some .write ∧
      (UnfoldsAgree env .identity .identity .identity folded x .write none ↔
        ∃ places, UnfoldsAlike env folded x .write none places) :=
  ⟨rfl, unfoldsAgree_iff rfl none .identity .identity .identity⟩

/-- On a `read` permission the algorithm leaves `read` on the fields, and the
statement leaves `write`. -/
theorem unfolds_disagree_on_read :
    readFolded.checkConsistency = true ∧
      readFolded.pred.get? x = some .read ∧
      ¬ UnfoldsAgree env .identity .identity .identity readFolded x .read
        none := by
  refine ⟨by decide, rfl, ?_⟩
  rintro ⟨unfolded, action, applied, refolded, hunfold, happly, hsame, _⟩
  have hleft : ∃ state action,
      unfold env .identity readFolded x .read none = .ok (state, action) ∧
        state.acc.get? xf = some .read := ⟨_, _, rfl, rfl⟩
  have hright : ∃ state,
      applyUnfold env .identity [x] .read none readFolded = .ok state ∧
        state.acc.get? xf = some .write := ⟨_, rfl, rfl⟩
  obtain ⟨state, action', hstate, hread⟩ := hleft
  obtain ⟨state', hstate', hwrite⟩ := hright
  rw [hunfold] at hstate
  cases hstate
  rw [happly] at hstate'
  cases hstate'
  have heq := hsame .acc xf
  rw [show applied.held .acc = applied.acc from rfl, hwrite,
    show unfolded.held .acc = unfolded.acc from rfl, hread] at heq
  cases heq

end Witness

end Prusti.FoldUnfold

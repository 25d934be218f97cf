/-
Restoring dropped permissions: an access permission is ignored below a
predicate, and a predicate removes the access permissions below it.
-/
import Prusti.FoldUnfold.PathCtxt
import Prusti.FoldUnfold.FoldTarget

namespace Prusti.Lib.HashMap

variable {α β : Type} [BEq α]

/-- An insertion at a new key. -/
theorem entries_insert_of_new {map : HashMap α β} {key : α}
    (h : map.contains key = false) (value : β) :
    (map.insert key value).entries = map.entries ++ [(key, value)] := by
  change (if map.contains key then _ else _) = _
  rw [h]
  rfl

theorem mem_entries_retain (map : HashMap α β) (keep : α → Bool) (entry : α × β) :
    entry ∈ (map.retain keep).entries ↔ entry ∈ map.entries ∧ keep entry.1 = true :=
  List.mem_filter

theorem mem_keys_retain (map : HashMap α β) (keep : α → Bool) (key : α) :
    key ∈ (map.retain keep).keys ↔ key ∈ map.keys ∧ keep key = true := by
  unfold keys
  simp only [List.mem_map, mem_entries_retain]
  constructor
  · rintro ⟨entry, ⟨hmem, hkeep⟩, rfl⟩
    exact ⟨⟨entry, hmem, rfl⟩, hkeep⟩
  · rintro ⟨⟨entry, hmem, rfl⟩, hkeep⟩
    exact ⟨entry, ⟨hmem, hkeep⟩, rfl⟩

end Prusti.Lib.HashMap

namespace Prusti.FoldUnfold

open Prusti.Vir Prusti.Lib

namespace State

/-- An access permission below a predicate is ignored. -/
def restoreAcc (state : State) (accPlace : Expr) (perm : PermAmount) : Except Exn State := do
  let perm ← match state.acc.get? accPlace with
    | some currPermAmount => PermAmount.addE perm currPermAmount
    | none => pure perm
  if accPlace.isSimplePlace && state.predPlaces.any fun predPlace =>
      predPlace.isSimplePlace && accPlace.hasProperPrefix predPlace then
    pure state
  else pure { state with acc := state.acc.insert accPlace perm }

/-- A predicate removes the access permissions below it. -/
def restorePred (state : State) (predPlace : Expr) (perm : PermAmount) : Except Exn State := do
  let perm ← match state.pred.get? predPlace with
    | some currPermAmount => PermAmount.addE perm currPermAmount
    | none => pure perm
  let acc :=
    if predPlace.isSimplePlace then
      state.acc.retain fun accPlace =>
        !(accPlace.isSimplePlace && accPlace.hasProperPrefix predPlace)
    else state.acc
  pure { state with acc, pred := state.pred.insert predPlace perm }

/-- The place and the places above it are no longer moved. -/
def restoreDroppedPerm (state : State) (item : Perm) : Except Exn State :=
  match item with
  | .acc place perm =>
    (state.removeMovedMatching fun moved => place.hasPrefix moved).restoreAcc place perm
  | .pred place perm =>
    (state.removeMovedMatching fun moved => place.hasPrefix moved).restorePred place perm

def restoreDroppedPerms (env : Env) (state : State) (items : List Perm) : Except Exn State := do
  let state ← items.foldlM restoreDroppedPerm state
  env.debugAssert state.checkConsistency
  pure state

end State

/-- The first place lies strictly below the second one, and both are simple:
the cases in which predicates and accesses conflict. -/
def liesBelow (place above : Expr) : Bool :=
  place.isSimplePlace && above.isSimplePlace && place.hasProperPrefix above

theorem isSimplePlace_congr {place place' : Expr} (h : (place == place') = true) :
    place.isSimplePlace = place'.isSimplePlace := by
  induction place using Expr.parent_induction generalizing place' with
  | step place ih =>
    cases place <;> cases place' <;>
      first
        | exact absurd h Bool.false_ne_true
        | rfl
        | (have hbase := ih _ rfl (Bool.and_eq_true _ _ ▸ h).1
           exact hbase)

theorem liesBelow_congr_left {place place' : Expr} (h : (place == place') = true) (above : Expr) :
    liesBelow place above = liesBelow place' above := by
  rw [liesBelow, liesBelow, isSimplePlace_congr h, Expr.hasProperPrefix_congr_left h]

/-- Restoring the access to a place that has none. -/
theorem State.restoreAcc_of_new {state : State} {place : Expr}
    (hnew : state.containsAcc place = false) (amount : PermAmount) :
    state.restoreAcc place amount = .ok (
      if state.predPlaces.any (liesBelow place) then state
      else { state with acc := state.acc.insert place amount }) := by
  have hget : state.acc.get? place = none := (HashMap.contains_eq_false_iff _ _).mp hnew
  have hbelow : (place.isSimplePlace && state.predPlaces.any fun predPlace =>
      predPlace.isSimplePlace && place.hasProperPrefix predPlace) =
      state.predPlaces.any (liesBelow place) := by
    unfold liesBelow
    cases place.isSimplePlace <;> simp
  simp only [restoreAcc, hget, pure_bind, hbelow]
  split <;> rfl

/-- Restoring the predicate of a place that has none. -/
theorem State.restorePred_of_new {state : State} {place : Expr}
    (hnew : state.containsPred place = false) (amount : PermAmount) :
    state.restorePred place amount = .ok { state with
      acc := state.acc.retain fun accPlace => !liesBelow accPlace place
      pred := state.pred.insert place amount } := by
  have hget : state.pred.get? place = none := (HashMap.contains_eq_false_iff _ _).mp hnew
  have hbelow : (if place.isSimplePlace then
      state.acc.retain fun accPlace =>
        !(accPlace.isSimplePlace && accPlace.hasProperPrefix place)
      else state.acc) =
      state.acc.retain fun accPlace => !liesBelow accPlace place := by
    unfold liesBelow
    cases place.isSimplePlace with
    | true => simp
    | false => simp [HashMap.retain]
  simp only [restorePred, hget, pure_bind, hbelow]
  rfl

/-- Two dropped permissions are about different places and do not conflict. -/
structure Apart (left right : Perm) : Prop where
  place : left.kind = right.kind → (left.getPlace == right.getPlace) = false
  below : left.kind = .acc → right.kind = .pred → liesBelow left.getPlace right.getPlace = false
  above : left.kind = .pred → right.kind = .acc → liesBelow right.getPlace left.getPlace = false

theorem Apart.symm {left right : Perm} (h : Apart left right) : Apart right left :=
  ⟨fun hkind => BEq.comm.trans (h.place hkind.symm), fun hright hleft => h.above hleft hright,
    fun hright hleft => h.below hleft hright⟩

/-- The state after the permissions `done` have been restored. -/
structure Restored (state : State) (done : List Perm) (final : State) : Prop where
  acc : ∀ entry, entry ∈ final.acc.entries ↔
    (entry ∈ state.acc.entries ∧ ∀ place amount, Perm.pred place amount ∈ done →
      liesBelow entry.1 place = false) ∨
    (Perm.acc entry.1 entry.2 ∈ done ∧ ∀ place ∈ state.predPlaces, liesBelow entry.1 place = false)
  pred : ∀ entry, entry ∈ final.pred.entries ↔
    entry ∈ state.pred.entries ∨ Perm.pred entry.1 entry.2 ∈ done
  moved : ∀ place, place ∈ final.moved.keys ↔ place ∈ state.moved.keys ∧
    ∀ perm ∈ done, perm.getPlace.hasPrefix place = false

namespace Restored

variable {state final : State} {done : List Perm}

theorem refl (state : State) : Restored state [] state := by
  constructor <;> simp

section

variable (h : Restored state done final)

include h

theorem mem_predPlaces (place : Expr) :
    place ∈ final.predPlaces ↔ place ∈ state.predPlaces ∨
      ∃ amount, Perm.pred place amount ∈ done := by
  unfold State.predPlaces HashMap.keys
  simp only [List.mem_map, Prod.exists, exists_and_right, exists_eq_right]
  simp only [h.pred, exists_or]

/-- A permission that is apart from the others is new. -/
theorem containsPerm_eq_false {item : Perm} (hnew : state.containsPerm item = false)
    (hapart : ∀ perm ∈ done, Apart perm item) : final.containsPerm item = false := by
  cases item with
  | acc place amount =>
    rw [State.containsPerm, State.containsAcc, HashMap.contains, List.any_eq_false] at hnew ⊢
    intro entry hentry
    rcases (h.acc entry).mp hentry with ⟨hold, -⟩ | ⟨hmem, -⟩
    · exact hnew entry hold
    · simpa [Perm.getPlace] using (hapart _ hmem).place rfl
  | pred place amount =>
    rw [State.containsPerm, State.containsPred, HashMap.contains, List.any_eq_false] at hnew ⊢
    intro entry hentry
    rcases (h.pred entry).mp hentry with hold | hmem
    · exact hnew entry hold
    · simpa [Perm.getPlace] using (hapart _ hmem).place rfl

/-- The places at or above the restored one are no longer moved. -/
theorem mem_moved_append (item : Perm) (place : Expr) :
    place ∈ (final.removeMovedMatching fun moved =>
        item.getPlace.hasPrefix moved).moved.keys ↔
      place ∈ state.moved.keys ∧ ∀ perm ∈ done ++ [item],
        perm.getPlace.hasPrefix place = false := by
  change place ∈ (HashMap.retain final.moved _).keys ↔ _
  rw [HashMap.mem_keys_retain, h.moved]
  simp [or_imp, forall_and, and_assoc]

/-- An access permission is restored unless it lies below a predicate, which
then is one that was held all along. -/
theorem restore_acc {place : Expr} {amount : PermAmount}
    (hnew : final.containsPerm (.acc place amount) = false)
    (hapart : ∀ perm ∈ done, Apart perm (.acc place amount)) :
    ∃ next, final.restoreDroppedPerm (.acc place amount) = .ok next ∧
      Restored state (done ++ [.acc place amount]) next := by
  have hmoved := h.mem_moved_append (.acc place amount)
  have hbelow : final.predPlaces.any (liesBelow place) = true ↔
      ∃ predPlace ∈ state.predPlaces, liesBelow place predPlace = true := by
    simp only [List.any_eq_true, h.mem_predPlaces]
    constructor
    · rintro ⟨predPlace, hpred | ⟨amount', hpred⟩, hlies⟩
      · exact ⟨predPlace, hpred, hlies⟩
      · have hapart' := (hapart _ hpred).above rfl rfl
        rw [show liesBelow place predPlace = false from hapart'] at hlies
        cases hlies
    · rintro ⟨predPlace, hpred, hlies⟩
      exact ⟨predPlace, .inl hpred, hlies⟩
  refine ⟨_, @State.restoreAcc_of_new (final.removeMovedMatching fun moved =>
    place.hasPrefix moved) place hnew amount, ?_⟩
  change Restored state _ (if final.predPlaces.any (liesBelow place) then _
    else _)
  split
  · next hignored =>
      obtain ⟨predPlace, hpred, hlies⟩ := hbelow.mp hignored
      refine ⟨fun entry => ?_, fun entry => ?_, hmoved⟩
      · rw [show (final.removeMovedMatching _).acc = final.acc from rfl, h.acc]
        simp only [List.mem_append, List.mem_singleton, reduceCtorEq, or_false, Perm.acc.injEq]
        refine or_congr_right ?_
        constructor
        · rintro ⟨hmem, hall⟩
          exact ⟨.inl hmem, hall⟩
        · rintro ⟨hmem | ⟨rfl, -⟩, hall⟩
          · exact ⟨hmem, hall⟩
          · rw [hall predPlace hpred] at hlies
            cases hlies
      · rw [show (final.removeMovedMatching _).pred = final.pred from rfl, h.pred]
        simp
  · next hkept =>
      have hall : ∀ predPlace ∈ state.predPlaces, liesBelow place predPlace = false := by
        intro predPlace hpred
        rw [Bool.eq_false_iff]
        intro hlies
        exact hkept (hbelow.mpr ⟨predPlace, hpred, hlies⟩)
      refine ⟨fun entry => ?_, fun entry => ?_, hmoved⟩
      · change entry ∈ (final.acc.insert place amount).entries ↔ _
        rw [HashMap.entries_insert_of_new hnew, List.mem_append, h.acc, List.mem_singleton]
        simp only [List.mem_append, List.mem_singleton, reduceCtorEq, or_false,
          Perm.acc.injEq, or_assoc]
        refine or_congr_right ?_
        constructor
        · rintro (⟨hmem, hall'⟩ | rfl)
          · exact ⟨.inl hmem, hall'⟩
          · exact ⟨.inr ⟨rfl, rfl⟩, hall⟩
        · rintro ⟨hmem | ⟨hplace, hamount⟩, hall'⟩
          · exact .inl ⟨hmem, hall'⟩
          · exact .inr (Prod.ext hplace hamount)
      · change entry ∈ final.pred.entries ↔ _
        rw [h.pred]
        simp

/-- A predicate is restored, and the access permissions below it go. -/
theorem restore_pred {place : Expr} {amount : PermAmount}
    (hnew : final.containsPerm (.pred place amount) = false)
    (hapart : ∀ perm ∈ done, Apart perm (.pred place amount)) :
    ∃ next, final.restoreDroppedPerm (.pred place amount) = .ok next ∧
      Restored state (done ++ [.pred place amount]) next := by
  refine ⟨_, @State.restorePred_of_new (final.removeMovedMatching fun moved =>
    place.hasPrefix moved) place hnew amount, fun entry => ?_,
    fun entry => ?_, h.mem_moved_append (.pred place amount)⟩
  · change entry ∈ (final.acc.retain fun accPlace =>
      !liesBelow accPlace place).entries ↔ _
    rw [HashMap.mem_entries_retain, h.acc, Bool.not_eq_true']
    simp only [List.mem_append, List.mem_singleton, reduceCtorEq, or_false, Perm.pred.injEq]
    constructor
    · rintro ⟨⟨hmem, hall⟩ | ⟨hmem, hall⟩, hlies⟩
      · refine .inl ⟨hmem, ?_⟩
        rintro predPlace amount' (hpred | ⟨rfl, -⟩)
        · exact hall predPlace amount' hpred
        · exact hlies
      · exact .inr ⟨hmem, hall⟩
    · rintro (⟨hmem, hall⟩ | ⟨hmem, hall⟩)
      · refine ⟨.inl ⟨hmem, fun predPlace amount' hpred => ?_⟩, ?_⟩
        · exact hall predPlace amount' (.inl hpred)
        · exact hall place amount (.inr ⟨rfl, rfl⟩)
      · exact ⟨.inr ⟨hmem, hall⟩, (hapart _ hmem).below rfl rfl⟩
  · change entry ∈ (final.pred.insert place amount).entries ↔ _
    rw [HashMap.entries_insert_of_new hnew, List.mem_append, h.pred]
    simp [Prod.ext_iff, or_assoc]

/-- One step restores one more permission. -/
theorem step {item : Perm} (hnew : state.containsPerm item = false)
    (hapart : ∀ perm ∈ done, Apart perm item) :
    ∃ next, final.restoreDroppedPerm item = .ok next ∧ Restored state (done ++ [item]) next := by
  have hnew' := h.containsPerm_eq_false hnew hapart
  cases item with
  | acc place amount => exact h.restore_acc hnew' hapart
  | pred place amount => exact h.restore_pred hnew' hapart

/-- A run restores all permissions. -/
theorem run (items : List Perm) (hnew : ∀ item ∈ items, state.containsPerm item = false)
    (hapart : (done ++ items).Pairwise Apart) :
    ∃ last, items.foldlM State.restoreDroppedPerm final = .ok last ∧
      Restored state (done ++ items) last := by
  induction items generalizing done final with
  | nil => exact ⟨final, rfl, by rwa [List.append_nil]⟩
  | cons item items ih =>
    have hbefore : ∀ perm ∈ done, Apart perm item := fun perm hperm =>
      (List.pairwise_append.mp hapart).2.2 perm hperm item (List.mem_cons_self ..)
    obtain ⟨next, hnext, hrestored⟩ := h.step (hnew item (List.mem_cons_self ..)) hbefore
    rw [List.append_cons] at hapart ⊢
    obtain ⟨last, hlast, hrun⟩ := ih hrestored
      (fun item' hitem' => hnew item' (List.mem_cons_of_mem _ hitem')) hapart
    refine ⟨last, ?_, hrun⟩
    rw [List.foldlM_cons, hnext]
    exact hlast

end

end Restored

/-- The state that holds the permissions of a set and nothing else. -/
def PermSet.asState (set : PermSet) : State := State.new set.accPerms set.predPerms HashMap.empty

/-- The permissions of a set in some order. -/
def PermSet.items (set : PermSet) : List Perm := set.perms IterOrder.identity

theorem PermSet.mem_items_acc (set : PermSet) (place : Expr) (amount : PermAmount) :
    Perm.acc place amount ∈ set.items ↔ (place, amount) ∈ set.accPerms.entries := by
  simp [PermSet.items, PermSet.perms, IterOrder.iter, IterOrder.identity]

theorem PermSet.mem_items_pred (set : PermSet) (place : Expr) (amount : PermAmount) :
    Perm.pred place amount ∈ set.items ↔ (place, amount) ∈ set.predPerms.entries := by
  simp [PermSet.items, PermSet.perms, IterOrder.iter, IterOrder.identity]

section Merge

/-- The permissions of two states, without the accesses of either below a
predicate of the other. -/
structure Merged (left right final : State) : Prop where
  acc : ∀ entry, entry ∈ final.acc.entries ↔
    (entry ∈ left.acc.entries ∧ ∀ place ∈ right.predPlaces, liesBelow entry.1 place = false) ∨
    (entry ∈ right.acc.entries ∧ ∀ place ∈ left.predPlaces, liesBelow entry.1 place = false)
  pred : ∀ entry, entry ∈ final.pred.entries ↔
    entry ∈ left.pred.entries ∨ entry ∈ right.pred.entries

theorem Merged.comm {left right final : State} (h : Merged left right final) :
    Merged right left final :=
  ⟨fun entry => (h.acc entry).trans or_comm, fun entry => (h.pred entry).trans or_comm⟩

/-- Nested predicates are held in part, the upper one as `read`. -/
def Compatible (lower upper : Expr × PermAmount) : Prop :=
  liesBelow lower.1 upper.1 = true → (lower.2 = .read ∨ lower.2 = .remaining) ∧ upper.2 = .read

theorem checkPredPred_iff (state : State) :
    state.checkPredPred = true ↔ ∀ lower ∈ state.pred.entries,
      ∀ upper ∈ state.pred.entries, Compatible lower upper := by
  unfold State.checkPredPred Compatible liesBelow
  simp only [List.all_eq_true, Bool.or_eq_true, Bool.not_eq_true',
    Bool.and_eq_true, beq_iff_eq, ← Bool.not_eq_true, imp_iff_not_or]

theorem checkAccPred_iff (state : State) :
    state.checkAccPred = true ↔ ∀ acc ∈ state.accPlaces,
      ∀ pred ∈ state.predPlaces, liesBelow acc pred = false := by
  unfold State.checkAccPred liesBelow
  simp only [List.all_eq_true, Bool.not_eq_true']

/-- What the check of a predicate looks for. -/
def AccBacked (state : State) (entry : Expr × PermAmount) : Prop :=
  entry.1.isSimplePlace = true → state.containsAcc entry.1 = true ∨
    (∃ parent, entry.1.getParent = some parent ∧ state.containsPred parent = true) ∨
    entry.2 = .remaining ∨ entry.2 = .read ∨ entry.1.isMirReference = true

theorem checkPredAcc_iff (state : State) :
    state.checkPredAcc = true ↔ ∀ entry ∈ state.pred.entries, AccBacked state entry := by
  unfold State.checkPredAcc AccBacked
  rw [List.all_eq_true]
  refine forall_congr' fun ⟨place, amount⟩ => forall_congr' fun _ => ?_
  cases hparent : place.getParent <;>
    simp [hparent, imp_iff_not_or, or_assoc]

/-- What the check of an access permission looks for. -/
def ParentHeld (state : State) (entry : Expr × PermAmount) : Prop :=
  entry.1.isSimplePlace = true → entry.1.isLocal = true ∨
    ∃ parent, entry.1.getParent = some parent ∧
      (state.containsAcc parent = true ∨ entry.2 = .read ∧
        parent.getParent.elim false Expr.isLocal = true)

theorem checkAccParent_iff (state : State) :
    state.checkAccParent = true ↔ ∀ entry ∈ state.acc.entries, ParentHeld state entry := by
  unfold State.checkAccParent ParentHeld
  rw [List.all_eq_true]
  refine forall_congr' fun ⟨place, amount⟩ => forall_congr' fun _ => ?_
  cases hparent : place.getParent <;>
    simp [hparent, imp_iff_not_or, or_assoc]

variable {left right final : State}

theorem Merged.containsPred (h : Merged left right final) {place : Expr}
    (hplace : left.containsPred place = true) :
    final.containsPred place = true := by
  unfold State.containsPred HashMap.contains at hplace ⊢
  obtain ⟨entry, hentry, heq⟩ := List.any_eq_true.mp hplace
  exact List.any_eq_true.mpr ⟨entry, (h.pred entry).mpr (.inl hentry), heq⟩

/-- An access stays unless a predicate of the other side lies above. -/
theorem Merged.containsAcc (h : Merged left right final) {place : Expr}
    (hplace : left.containsAcc place = true) :
    final.containsAcc place = true ∨ ∃ above ∈ right.predPlaces, liesBelow place above = true := by
  unfold State.containsAcc HashMap.contains at hplace ⊢
  obtain ⟨entry, hentry, heq⟩ := List.any_eq_true.mp hplace
  by_cases hbelow : ∃ above ∈ right.predPlaces, liesBelow place above = true
  · exact .inr hbelow
  · refine .inl (List.any_eq_true.mpr ⟨entry, (h.acc entry).mpr (.inl
      ⟨hentry, fun above habove => ?_⟩), heq⟩)
    rw [liesBelow_congr_left heq, Bool.eq_false_iff]
    exact fun hlies => hbelow ⟨above, habove, hlies⟩

/-- The predicates of one side stay backed by their accesses. -/
theorem Merged.accBacked (h : Merged left right final)
    (hcompatible : ∀ lower ∈ left.pred.entries, ∀ upper ∈ right.pred.entries,
      Compatible lower upper)
    {entry : Expr × PermAmount} (hmem : entry ∈ left.pred.entries)
    (hentry : AccBacked left entry) : AccBacked final entry := by
  intro hsimple
  rcases hentry hsimple with hacc | ⟨parent, hparent, hpred⟩ | hamount
  · rcases h.containsAcc hacc with hkept | ⟨above, habove, hlies⟩
    · exact .inl hkept
    · -- a predicate above is only allowed over a partial one
      obtain ⟨upper, hupper, rfl⟩ := List.mem_map.mp habove
      rcases (hcompatible entry hmem upper hupper hlies).1 with hread | hread
      · exact .inr (.inr (.inr (.inl hread)))
      · exact .inr (.inr (.inl hread))
  · exact .inr (.inl ⟨parent, hparent, h.containsPred hpred⟩)
  · exact .inr (.inr hamount)

/-- The accesses of one side that stay keep their parents. -/
theorem Merged.parentHeld (h : Merged left right final) {entry : Expr × PermAmount}
    (hkept : ∀ place ∈ right.predPlaces, liesBelow entry.1 place = false)
    (hentry : ParentHeld left entry) : ParentHeld final entry := by
  intro hsimple
  rcases hentry hsimple with hlocal | ⟨parent, hparent, hacc | hread⟩
  · exact .inl hlocal
  · refine .inr ⟨parent, hparent, .inl ?_⟩
    rcases h.containsAcc hacc with hcontains | ⟨above, habove, hlies⟩
    · exact hcontains
    · -- a predicate above the parent would also lie above the place
      have hfalse := hkept above habove
      rw [liesBelow, Bool.and_eq_true, Bool.and_eq_true] at hlies
      have hproper := (Expr.hasProperPrefix_iff_getParent _ _).mpr
        ⟨parent, hparent, Expr.hasPrefix_of_hasProperPrefix hlies.2⟩
      simp [liesBelow, hsimple, hlies.1.2, hproper] at hfalse
  · exact .inr ⟨parent, hparent, .inr hread⟩

variable {state : State} {dropped : PermSet}

/-- No held and restored predicates are nested, unless both are held in part. -/
def PredsCompatible (state : State) (dropped : PermSet) : Prop :=
  ∀ held ∈ state.pred.entries, ∀ restored ∈ dropped.predPerms.entries,
    Compatible held restored ∧ Compatible restored held

/-- Every moved place at or below a restored predicate is at or above a
restored place, which ends the move. -/
def MovedRestored (state : State) (dropped : PermSet) : Prop :=
  ∀ moved ∈ state.moved.keys, ∀ pred ∈ dropped.predPerms.keys,
    moved.isSimplePlace = true → pred.isSimplePlace = true →
    moved.hasPrefix pred = true →
    ∃ perm ∈ dropped.items, perm.getPlace.hasPrefix moved = true

theorem Merged.checkPredAcc_of_compatible (h : Merged state dropped.asState final)
    (hcompatible : PredsCompatible state dropped) (hstate : state.checkPredAcc = true)
    (hdropped : dropped.asState.checkPredAcc = true) :
    final.checkPredAcc = true := by
  rw [checkPredAcc_iff] at hstate hdropped ⊢
  intro entry hentry
  rcases (h.pred entry).mp hentry with hmem | hmem
  · exact h.accBacked (fun lower hlower upper hupper =>
      (hcompatible lower hlower upper hupper).1) hmem (hstate entry hmem)
  · exact h.comm.accBacked (fun lower hlower upper hupper =>
      (hcompatible upper hupper lower hlower).2) hmem (hdropped entry hmem)

theorem Merged.checkAccParent (h : Merged left right final) (hleft : left.checkAccParent = true)
    (hright : right.checkAccParent = true) : final.checkAccParent = true := by
  rw [checkAccParent_iff] at hleft hright ⊢
  intro entry hentry
  rcases (h.acc entry).mp hentry with ⟨hmem, hkept⟩ | ⟨hmem, hkept⟩
  · exact h.parentHeld hkept (hleft entry hmem)
  · exact h.comm.parentHeld hkept (hright entry hmem)

theorem Merged.mem_predPlaces (h : Merged left right final) (place : Expr) :
    place ∈ final.predPlaces ↔ place ∈ left.predPlaces ∨ place ∈ right.predPlaces := by
  unfold State.predPlaces HashMap.keys
  simp only [List.mem_map, h.pred, or_and_right, exists_or]

theorem Merged.checkAccPred (h : Merged left right final)
    (hleft : left.checkAccPred = true) (hright : right.checkAccPred = true) :
    final.checkAccPred = true := by
  rw [checkAccPred_iff] at hleft hright ⊢
  intro acc hacc pred hpred
  obtain ⟨entry, hentry, rfl⟩ := List.mem_map.mp hacc
  rcases (h.acc entry).mp hentry with ⟨hmem, hkept⟩ | ⟨hmem, hkept⟩
  · rcases (h.mem_predPlaces pred).mp hpred with hpred | hpred
    · exact hleft _ (List.mem_map_of_mem hmem) pred hpred
    · exact hkept pred hpred
  · rcases (h.mem_predPlaces pred).mp hpred with hpred | hpred
    · exact hkept pred hpred
    · exact hright _ (List.mem_map_of_mem hmem) pred hpred

/-- The nested predicates of the merged state are those of either side and
those between the sides. -/
theorem Merged.checkPredPred_iff (h : Merged state dropped.asState final)
    (hstate : state.checkPredPred = true) (hdropped : dropped.asState.checkPredPred = true) :
    final.checkPredPred = true ↔ PredsCompatible state dropped := by
  rw [FoldUnfold.checkPredPred_iff] at hstate hdropped ⊢
  constructor
  · intro hfinal held hheld restored hrestored
    have hheld' := (h.pred held).mpr (.inl hheld)
    have hrestored' := (h.pred restored).mpr (.inr hrestored)
    exact ⟨hfinal held hheld' restored hrestored', hfinal restored hrestored' held hheld'⟩
  · intro hcompatible lower hlower upper hupper
    rcases (h.pred lower).mp hlower with hlower | hlower
    · rcases (h.pred upper).mp hupper with hupper | hupper
      · exact hstate lower hlower upper hupper
      · exact (hcompatible lower hlower upper hupper).1
    · rcases (h.pred upper).mp hupper with hupper | hupper
      · exact (hcompatible upper hupper lower hlower).2
      · exact hdropped lower hlower upper hupper

end Merge

section Consistency

variable {state final : State} {dropped : PermSet}

variable {items : List Perm}

/-- What restoring the permissions of a set gives, in any order. -/
theorem Restored.merged (h : Restored state items final) (hitems : items.Perm dropped.items) :
    Merged state dropped.asState final := by
  refine ⟨fun entry => ?_, fun entry => ?_⟩
  · rw [h.acc, hitems.mem_iff, PermSet.mem_items_acc]
    refine or_congr_left (and_congr_right fun _ => ?_)
    simp only [hitems.mem_iff, PermSet.mem_items_pred]
    unfold State.predPlaces HashMap.keys
    simp only [List.mem_map, Prod.exists, exists_and_right, exists_eq_right, forall_exists_index]
    rfl
  · rw [h.pred, hitems.mem_iff, PermSet.mem_items_pred]
    rfl

theorem Restored.checkAccMoved (h : Restored state items final) (hitems : items.Perm dropped.items)
    (hstate : state.checkAccMoved = true) : final.checkAccMoved = true := by
  unfold State.checkAccMoved at hstate ⊢
  simp only [List.all_eq_true] at hstate ⊢
  intro acc hacc moved hmoved
  obtain ⟨hmem, hnone⟩ := (h.moved moved).mp hmoved
  obtain ⟨entry, hentry, rfl⟩ := List.mem_map.mp hacc
  rcases ((h.merged hitems).acc entry).mp hentry with ⟨hold, -⟩ | ⟨hnew, -⟩
  · exact hstate _ (List.mem_map_of_mem hold) moved hmem
  · have hbegins := hnone (.acc entry.1 entry.2)
      (hitems.mem_iff.mpr ((dropped.mem_items_acc _ _).mpr hnew))
    have hproper : entry.1.hasProperPrefix moved = false := by
      rw [Bool.eq_false_iff]
      intro hproper
      exact Bool.false_ne_true (hbegins.symm.trans (Expr.hasPrefix_of_hasProperPrefix hproper))
    simp [hproper]

theorem checkPredMoved_iff (state : State) :
    state.checkPredMoved = true ↔ ∀ pred ∈ state.predPlaces,
      ∀ moved ∈ state.moved.keys, moved.isSimplePlace = true →
      pred.isSimplePlace = true → pred.hasPrefix moved = false ∧ moved.hasPrefix pred = false := by
  unfold State.checkPredMoved
  simp only [List.all_eq_true]
  refine forall₂_congr fun pred _ => forall₂_congr fun moved _ => ?_
  cases moved.isSimplePlace <;> cases pred.isSimplePlace <;> simp

/-- A restored predicate meets a moved place only below itself, and only if
nothing restored ends that move. -/
theorem Restored.checkPredMoved_iff (h : Restored state items final)
    (hitems : items.Perm dropped.items) (hstate : state.checkPredMoved = true) :
    final.checkPredMoved = true ↔ MovedRestored state dropped := by
  rw [FoldUnfold.checkPredMoved_iff] at hstate ⊢
  have hpreds := (h.merged hitems).mem_predPlaces
  constructor
  · intro hfinal moved hmoved pred hpred hsimple hsimple' hbegins
    by_contra hnone
    push Not at hnone
    have hmoved' : moved ∈ final.moved.keys := (h.moved moved).mpr
      ⟨hmoved, fun perm hperm => Bool.eq_false_iff.mpr (hnone perm (hitems.mem_iff.mp hperm))⟩
    have := (hfinal pred ((hpreds pred).mpr (.inr hpred)) moved hmoved' hsimple hsimple').2
    rw [hbegins] at this
    cases this
  · intro hrestored pred hpred moved hmoved hsimple hsimple'
    obtain ⟨hmem, hnone⟩ := (h.moved moved).mp hmoved
    rcases (hpreds pred).mp hpred with hheld | hnew
    · exact hstate pred hheld moved hmem hsimple hsimple'
    · obtain ⟨entry, hentry, rfl⟩ := List.mem_map.mp hnew
      refine ⟨hnone (.pred entry.1 entry.2)
        (hitems.mem_iff.mpr ((dropped.mem_items_pred _ _).mpr hentry)), ?_⟩
      rw [Bool.eq_false_iff]
      intro hbegins
      obtain ⟨perm, hperm, hover⟩ := hrestored moved hmem _ hnew hsimple hsimple' hbegins
      rw [hnone perm (hitems.mem_iff.mpr hperm)] at hover
      cases hover

/-- The state after restoring is consistent exactly if no two predicates clash
and every move below a restored predicate has ended. -/
theorem Restored.checkConsistency_iff (h : Restored state items final)
    (hitems : items.Perm dropped.items) (hstate : state.checkConsistency = true)
    (hdropped : dropped.asState.checkConsistency = true) :
    final.checkConsistency = true ↔
      PredsCompatible state dropped ∧ MovedRestored state dropped := by
  have hmerged := h.merged hitems
  unfold State.checkConsistency at hstate hdropped ⊢
  simp only [Bool.and_eq_true] at hstate hdropped ⊢
  obtain ⟨⟨⟨⟨⟨hpredAcc, haccParent⟩, hpredPred⟩, haccPred⟩, haccMoved⟩, hpredMoved⟩ := hstate
  obtain ⟨⟨⟨⟨⟨hpredAcc', haccParent'⟩, hpredPred'⟩, haccPred'⟩, -⟩, -⟩ := hdropped
  rw [hmerged.checkPredPred_iff hpredPred hpredPred', h.checkPredMoved_iff hitems hpredMoved]
  constructor
  · rintro ⟨⟨⟨⟨_, hcompatible⟩, _⟩, _⟩, hrestored⟩
    exact ⟨hcompatible, hrestored⟩
  · rintro ⟨hcompatible, hrestored⟩
    exact ⟨⟨⟨⟨⟨hmerged.checkPredAcc_of_compatible hcompatible hpredAcc hpredAcc',
      hmerged.checkAccParent haccParent haccParent'⟩, hcompatible⟩,
      hmerged.checkAccPred haccPred haccPred'⟩, h.checkAccMoved hitems haccMoved⟩, hrestored⟩

/-- Every place keeps the more general of what is held and what is restored: all
predicates stay, and the accesses stay that no predicate lies above. -/
structure KeepsMoreGeneral (state : State) (dropped : PermSet) (final : State) : Prop where
  pred : ∀ place, final.pred.get? place = (state.pred.get? place).or (dropped.predPerms.get? place)
  acc : ∀ place, final.acc.get? place =
    if (state.predPlaces ++ dropped.asState.predPlaces).any (liesBelow place)
    then none
    else (state.acc.get? place).or (dropped.accPerms.get? place)

/-- The look-up in a map made of the entries of two maps without a common
key. -/
theorem get?_eq_of_entries {left right final : HashMap Expr PermAmount} {drop : Expr → Bool}
    (hentries : ∀ entry, entry ∈ final.entries ↔
      (entry ∈ left.entries ∨ entry ∈ right.entries) ∧ drop entry.1 = false)
    (hdrop : ∀ place place', (place == place') = true → drop place = drop place')
    (hdisjoint : ∀ place, right.contains place = true →
      left.contains place = false) (place : Expr) :
    final.get? place = if drop place then none else (left.get? place).or (right.get? place) := by
  ext amount
  rw [← HashMap.exists_entry_iff]
  cases hplace : drop place with
  | true =>
    simp only [↓reduceIte, reduceCtorEq, iff_false]
    rintro ⟨entry, hmem, heq, -⟩
    have hkept := ((hentries entry).mp hmem).2
    rw [hdrop _ _ heq, hplace] at hkept
    cases hkept
  | false =>
    rw [if_neg Bool.false_ne_true, Option.or_eq_some_iff,
      ← HashMap.exists_entry_iff, ← HashMap.exists_entry_iff]
    constructor
    · rintro ⟨entry, hmem, heq, hamount⟩
      rcases ((hentries entry).mp hmem).1 with hleft | hright
      · exact .inl ⟨entry, hleft, heq, hamount⟩
      · refine .inr ⟨?_, entry, hright, heq, hamount⟩
        rw [← HashMap.contains_eq_false_iff]
        exact hdisjoint place (List.any_eq_true.mpr ⟨entry, hright, heq⟩)
    · have hkept : ∀ entry : Expr × PermAmount,
          (entry.1 == place) = true → drop entry.1 = false :=
        fun entry heq => (hdrop _ _ heq).trans hplace
      rintro (⟨entry, hmem, heq, hamount⟩ | ⟨-, entry, hmem, heq, hamount⟩)
      · exact ⟨entry, (hentries entry).mpr ⟨.inl hmem, hkept entry heq⟩, heq, hamount⟩
      · exact ⟨entry, (hentries entry).mpr ⟨.inr hmem, hkept entry heq⟩, heq, hamount⟩

/-- None of the permissions of the set is held. -/
def NoneHeld (state : State) (dropped : PermSet) : Prop :=
  ∀ perm ∈ dropped.items, state.containsPerm perm = false

theorem NoneHeld.containsAcc (h : NoneHeld state dropped) {place : Expr}
    (hplace : dropped.accPerms.contains place = true) :
    state.acc.contains place = false := by
  obtain ⟨entry, hentry, heq⟩ := List.any_eq_true.mp hplace
  rw [← HashMap.contains_congr state.acc heq]
  exact h (.acc entry.1 entry.2) ((dropped.mem_items_acc _ _).mpr hentry)

theorem NoneHeld.containsPred (h : NoneHeld state dropped) {place : Expr}
    (hplace : dropped.predPerms.contains place = true) :
    state.pred.contains place = false := by
  obtain ⟨entry, hentry, heq⟩ := List.any_eq_true.mp hplace
  rw [← HashMap.contains_congr state.pred heq]
  exact h (.pred entry.1 entry.2) ((dropped.mem_items_pred _ _).mpr hentry)

/-- The merged state keeps the more general permissions. -/
theorem Merged.keepsMoreGeneral (h : Merged state dropped.asState final)
    (hnone : NoneHeld state dropped) (hstate : state.checkAccPred = true)
    (hdropped : dropped.asState.checkAccPred = true) :
    KeepsMoreGeneral state dropped final := by
  rw [checkAccPred_iff] at hstate hdropped
  refine ⟨fun place => ?_, fun place => ?_⟩
  · rw [@get?_eq_of_entries state.pred dropped.predPerms final.pred (fun _ => false)]
    · rfl
    · intro entry
      rw [h.pred]
      exact (and_iff_left rfl).symm
    · exact fun _ _ _ => rfl
    · exact fun _ => hnone.containsPred
  · refine @get?_eq_of_entries state.acc dropped.accPerms final.acc
      (fun place => (state.predPlaces ++ dropped.asState.predPlaces).any
        (liesBelow place)) ?_ ?_ (fun _ => hnone.containsAcc) place
    · intro entry
      rw [h.acc, List.any_append, Bool.or_eq_false_iff, List.any_eq_false, List.any_eq_false]
      simp only [Bool.not_eq_true]
      constructor
      · rintro (⟨hmem, hkept⟩ | ⟨hmem, hkept⟩)
        · exact ⟨.inl hmem, hstate _ (List.mem_map_of_mem hmem), hkept⟩
        · exact ⟨.inr hmem, hkept, hdropped _ (List.mem_map_of_mem hmem)⟩
      · rintro ⟨hmem | hmem, hheld, hrestored⟩
        · exact .inl ⟨hmem, hrestored⟩
        · exact .inr ⟨hmem, hheld⟩
    · intro place place' heq
      exact congrArg _ (funext fun above => liesBelow_congr_left heq above)

/-- The permissions of a consistent set do not conflict. -/
theorem pairwise_apart (hdropped : dropped.asState.checkAccPred = true) :
    dropped.items.Pairwise Apart := by
  rw [checkAccPred_iff] at hdropped
  unfold PermSet.items PermSet.perms
  rw [List.pairwise_append, List.pairwise_map, List.pairwise_map]
  refine ⟨?_, ?_, ?_⟩
  · refine List.Pairwise.imp ?_ dropped.accPerms.nodup
    intro left right hne
    exact ⟨fun _ => hne, fun _ => nofun, nofun⟩
  · refine List.Pairwise.imp ?_ dropped.predPerms.nodup
    intro left right hne
    exact ⟨fun _ => hne, nofun, fun _ => nofun⟩
  · intro acc hacc pred hpred
    obtain ⟨entry, hentry, rfl⟩ := List.mem_map.mp hacc
    obtain ⟨entry', hentry', rfl⟩ := List.mem_map.mp hpred
    refine ⟨nofun, fun _ _ => ?_, nofun⟩
    exact hdropped _ (List.mem_map_of_mem hentry) _ (List.mem_map_of_mem hentry')

theorem checkAccPred_of_checkConsistency {state : State}
    (h : state.checkConsistency = true) : state.checkAccPred = true := by
  unfold State.checkConsistency at h
  simp only [Bool.and_eq_true] at h
  exact h.1.1.2

theorem restoreDroppedPerms_eq_ok_iff {env : Env} :
    state.restoreDroppedPerms env items = .ok final ↔
      items.foldlM State.restoreDroppedPerm state = .ok final ∧
        (!env.debug || final.checkConsistency) = true := by
  unfold State.restoreDroppedPerms Env.debugAssert
  simp only [bind_eq_ok_iff, assert_eq_ok_iff]
  constructor
  · rintro ⟨last, hlast, _, hcheck, hfinal⟩
    cases hfinal
    exact ⟨hlast, hcheck⟩
  · rintro ⟨hlast, hcheck⟩
    exact ⟨final, hlast, (), hcheck, rfl⟩

/-- Restoring works in every order: it ends in a consistent state with the more
general permissions, and the permissions do not depend on the order. -/
structure RestoresWell (env : Env) (state : State) (dropped : PermSet) : Prop where
  restores : ∀ items, items.Perm dropped.items →
    ∃ final, state.restoreDroppedPerms env items = .ok final ∧
      final.checkConsistency = true ∧ KeepsMoreGeneral state dropped final
  orderFree : ∀ items items' final final', items.Perm dropped.items →
    items'.Perm dropped.items →
    state.restoreDroppedPerms env items = .ok final →
    state.restoreDroppedPerms env items' = .ok final' →
    ∀ place, final.acc.get? place = final'.acc.get? place ∧
      final.pred.get? place = final'.pred.get? place

/-- Restoring dropped permissions works exactly if held and restored predicates
are nested only where both are held in part, and every move at or below a
restored predicate is ended. -/
theorem restoresWell_iff (env : Env) (state : State) (dropped : PermSet)
    (hstate : state.checkConsistency = true) (hdropped : dropped.asState.checkConsistency = true)
    (hnone : NoneHeld state dropped) :
    RestoresWell env state dropped ↔
      PredsCompatible state dropped ∧ MovedRestored state dropped := by
  have haccPred := checkAccPred_of_checkConsistency hstate
  have haccPred' := checkAccPred_of_checkConsistency hdropped
  -- every order ends in a state with the same merged permissions
  have hrun : ∀ items : List Perm, items.Perm dropped.items →
      ∃ last, items.foldlM State.restoreDroppedPerm state = .ok last ∧
        (last.checkConsistency = true ↔
          PredsCompatible state dropped ∧ MovedRestored state dropped) ∧
        KeepsMoreGeneral state dropped last := by
    intro items hitems
    obtain ⟨last, hlast, hrestored⟩ := (Restored.refl state).run items
      (fun item hitem => hnone item (hitems.mem_iff.mp hitem))
      ((hitems.pairwise_iff Apart.symm).mpr (pairwise_apart haccPred'))
    exact ⟨last, hlast, hrestored.checkConsistency_iff hitems hstate hdropped,
      (hrestored.merged hitems).keepsMoreGeneral hnone haccPred haccPred'⟩
  constructor
  · intro h
    obtain ⟨last, hlast, hconsistent, -⟩ := hrun dropped.items (.refl _)
    obtain ⟨final, hfinal, hcheck, -⟩ := h.restores dropped.items (.refl _)
    rw [restoreDroppedPerms_eq_ok_iff, hlast] at hfinal
    cases hfinal.1
    exact hconsistent.mp hcheck
  · intro h
    refine ⟨fun items hitems => ?_, fun items items' final final' hitems hitems'
      hfinal hfinal' place => ?_⟩
    · obtain ⟨last, hlast, hconsistent, hkeeps⟩ := hrun items hitems
      have hcheck := hconsistent.mpr h
      refine ⟨last, ?_, hcheck, hkeeps⟩
      rw [restoreDroppedPerms_eq_ok_iff]
      exact ⟨hlast, by rw [hcheck, Bool.or_true]⟩
    · obtain ⟨last, hlast, -, hkeeps⟩ := hrun items hitems
      obtain ⟨last', hlast', -, hkeeps'⟩ := hrun items' hitems'
      rw [restoreDroppedPerms_eq_ok_iff, hlast] at hfinal
      rw [restoreDroppedPerms_eq_ok_iff, hlast'] at hfinal'
      cases hfinal.1
      cases hfinal'.1
      rw [hkeeps.acc, hkeeps'.acc, hkeeps.pred, hkeeps'.pred]
      exact ⟨rfl, rfl⟩

end Consistency

namespace Witness

/-- The list is unfolded: its access and that of its tail are held. -/
def unfoldedTail : State :=
  State.new (HashMap.ofList [(listVar, .write), (consVariant, .write), (consTail, .write)])
    (HashMap.ofList [(consTail, .write)]) HashMap.empty

/-- A read of the whole list was dropped. -/
def droppedRead : PermSet := ⟨HashMap.empty, HashMap.ofList [(listVar, .read)]⟩

/-- A read of another list was dropped. -/
def droppedOther : PermSet :=
  ⟨HashMap.empty, HashMap.ofList [(.localVar ⟨"_2", .typedRef "List"⟩ Position.default, .read)]⟩

/-- The restored predicate and the held one below it clash. -/
theorem droppedRead_not_restoresWell :
    unfoldedTail.checkConsistency = true ∧
      droppedRead.asState.checkConsistency = true ∧
      NoneHeld unfoldedTail droppedRead ∧
      ∀ env, ¬ RestoresWell env unfoldedTail droppedRead := by
  refine ⟨by decide, by decide, by unfold NoneHeld; decide, fun env h => ?_⟩
  obtain ⟨final, hfinal, hcheck, -⟩ := h.restores droppedRead.items (.refl _)
  have hlast := (restoreDroppedPerms_eq_ok_iff.mp hfinal).1
  obtain ⟨final', hfinal', hcheck'⟩ : ∃ final',
      droppedRead.items.foldlM State.restoreDroppedPerm unfoldedTail =
        .ok final' ∧ final'.checkConsistency = false :=
    ⟨_, rfl, by decide⟩
  rw [hfinal'] at hlast
  cases hlast
  rw [hcheck] at hcheck'
  cases hcheck'

theorem restoresWell_iff_droppedOther :
    RestoresWell ⟨fun _ => none, true⟩ unfoldedTail droppedOther ↔
      PredsCompatible unfoldedTail droppedOther ∧ MovedRestored unfoldedTail droppedOther :=
  restoresWell_iff _ unfoldedTail droppedOther (by decide) (by decide) (by unfold NoneHeld; decide)

end Witness

end Prusti.FoldUnfold

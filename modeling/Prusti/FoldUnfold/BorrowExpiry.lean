/-
A mutable borrow hands the permissions below the borrowed place to the
reference, and the expiry of the borrow hands them back.
-/
import Prusti.FoldUnfold.UnfoldStmt
import Prusti.FoldUnfold.RestoredPerms
import Prusti.Vir.Rebase

namespace Prusti.Lib

variable {α β : Type} [BEq α] [PartialEquivBEq α]

/-- Keys may be exchanged for equal ones. -/
theorem lookup_map_of_beq {entries : List (α × β)} {rename : α → α}
    (h : ∀ entry ∈ entries, (rename entry.1 == entry.1) = true) (key : α) :
    lookup (entries.map fun entry => (rename entry.1, entry.2)) key = lookup entries key := by
  induction entries with
  | nil => rfl
  | cons entry entries ih =>
    rw [List.map_cons, lookup_cons, lookup_cons,
      ih fun other hother => h other (List.mem_cons_of_mem _ hother),
      BEq.congr_left (h entry List.mem_cons_self)]

/-- The entries below some place are renamed, the others stay. -/
def EntriesMoved (below : α → Bool) (rename : α → α) (entries entries' : List (α × β)) : Prop :=
  entries'.Perm ((entries.filter fun entry => !below entry.1) ++
    (entries.filter fun entry => below entry.1).map fun entry =>
      (rename entry.1, entry.2))

omit [BEq α] [PartialEquivBEq α] in
theorem EntriesMoved.mem {below : α → Bool} {rename : α → α} {entries entries' : List (α × β)}
    (h : EntriesMoved below rename entries entries') {entry : α × β} (hentry : entry ∈ entries') :
    (entry ∈ entries ∧ below entry.1 = false) ∨
      ∃ old ∈ entries, below old.1 = true ∧ entry.1 = rename old.1 := by
  rcases List.mem_append.mp (h.mem_iff.mp hentry) with hkept | hmoved
  · have hfilter := List.mem_filter.mp hkept
    exact .inl ⟨hfilter.1, by simpa using hfilter.2⟩
  · obtain ⟨old, hold, rfl⟩ := List.mem_map.mp hmoved
    have hfilter := List.mem_filter.mp hold
    exact .inr ⟨old, hfilter.1, hfilter.2, rfl⟩

omit [BEq α] [PartialEquivBEq α] in
/-- Entries at a new place come from somewhere. -/
theorem EntriesMoved.exists_below {below below' : α → Bool} {rename : α → α}
    {entries entries' : List (α × β)} (h : EntriesMoved below rename entries entries')
    (hempty : ∀ entry ∈ entries, below' entry.1 = false) {entry : α × β}
    (hentry : entry ∈ entries') (hbelow : below' entry.1 = true) :
    ∃ old ∈ entries, below old.1 = true := by
  rcases h.mem hentry with ⟨hold, _⟩ | ⟨old, hold, holdBelow, _⟩
  · rw [hempty entry hold] at hbelow
    cases hbelow
  · exact ⟨old, hold, holdBelow⟩

/-- Moving entries to a place that had none below it and back again. -/
theorem EntriesMoved.get?_back {map map' map'' : HashMap α β}
    {below below' : α → Bool} {rename rename' : α → α}
    (h : EntriesMoved below rename map.entries map'.entries)
    (h' : EntriesMoved below' rename' map'.entries map''.entries)
    (hempty : ∀ entry ∈ map.entries, below' entry.1 = false)
    (hbelow : ∀ entry ∈ map.entries, below entry.1 = true → below' (rename entry.1) = true)
    (hback : ∀ entry ∈ map.entries, below entry.1 = true →
      (rename' (rename entry.1) == entry.1) = true)
    (hcongr : ∀ left right : α, (left == right) = true → below left = below right) (key : α) :
    map''.get? key = map.get? key := by
  let kept := map.entries.filter fun entry => !below entry.1
  let moved := (map.entries.filter fun entry => below entry.1).map
    fun entry => (rename entry.1, entry.2)
  have hkept : ∀ entry ∈ kept, below' entry.1 = false :=
    fun entry hentry => hempty entry (List.mem_filter.mp hentry).1
  have hmoved : ∀ entry ∈ moved, below' entry.1 = true := by
    intro entry hentry
    obtain ⟨old, hold, rfl⟩ := List.mem_map.mp hentry
    exact hbelow old (List.mem_filter.mp hold).1 (List.mem_filter.mp hold).2
  have hstay : ((kept ++ moved).filter fun entry => !below' entry.1) = kept := by
    rw [List.filter_append,
      List.filter_eq_self.mpr fun entry hentry => by rw [hkept entry hentry]; rfl,
      List.filter_eq_nil_iff.mpr fun entry hentry => by
        rw [hmoved entry hentry]
        exact Bool.false_ne_true,
      List.append_nil]
  have hreturn : ((kept ++ moved).filter fun entry => below' entry.1) = moved := by
    rw [List.filter_append, List.filter_eq_nil_iff.mpr fun entry hentry => by
        rw [hkept entry hentry]
        exact Bool.false_ne_true,
      List.filter_eq_self.mpr hmoved, List.nil_append]
  have hperm : map''.entries.Perm
      (kept ++ (map.entries.filter fun entry => below entry.1).map fun entry =>
        (rename' (rename entry.1), entry.2)) := by
    have hback := h'.trans ((h.filter _).append ((h.filter _).map _))
    rw [hstay, hreturn, List.map_map] at hback
    exact hback
  calc map''.get? key
      = lookup (kept ++ (map.entries.filter fun entry => below entry.1).map
          fun entry => (rename' (rename entry.1), entry.2)) key :=
        (lookup_perm map''.nodup hperm.symm key).symm
    _ = (lookup kept key).or (lookup (map.entries.filter fun entry => below entry.1) key) := by
        rw [lookup_append]
        congr 1
        apply @lookup_map_of_beq _ _ _ _ _ fun place => rename' (rename place)
        intro entry hentry
        exact hback entry (List.mem_filter.mp hentry).1 (List.mem_filter.mp hentry).2
    _ = map.get? key := by
        rw [lookup_filter map.entries (fun place => !below place)
            (fun left right heq => by rw [hcongr left right heq]),
          lookup_filter map.entries below hcongr, HashMap.get?]
        cases below key <;> simp

end Prusti.Lib

namespace Prusti.FoldUnfold

open Prusti.Vir Prusti.Lib

variable {items : List (Expr × PermAmount)} {source target : Expr}

/-- Add amounts at places, one after the other. -/
def insertAmounts (map : HashMap Expr PermAmount)
    (items : List (Expr × PermAmount)) : Except Exn (HashMap Expr PermAmount) :=
  items.foldlM (fun map item => insertAmount map item.1 item.2) map

theorem State.insertAllAcc_of_insertAmounts {state : State} {acc : HashMap Expr PermAmount}
    (h : insertAmounts state.acc items = .ok acc) :
    state.insertAllAcc items = .ok { state with acc } := by
  induction items generalizing state with
  | nil =>
    cases h
    rfl
  | cons item items ih =>
    obtain ⟨map, hmap, hrest⟩ := exists_of_bind_eq_ok h
    have hinsert : state.insertAcc item.1 item.2 = .ok { state with acc := map } := by
      simp only [State.insertAcc, hmap]
      rfl
    exact (bind_eq_ok_iff _ _ _).mpr ⟨_, hinsert, ih hrest⟩

theorem State.insertAllPred_of_insertAmounts {state : State} {pred : HashMap Expr PermAmount}
    (h : insertAmounts state.pred items = .ok pred) :
    state.insertAllPred items = .ok { state with pred } := by
  induction items generalizing state with
  | nil =>
    cases h
    rfl
  | cons item items ih =>
    obtain ⟨map, hmap, hrest⟩ := exists_of_bind_eq_ok h
    have hinsert : state.insertPred item.1 item.2 = .ok { state with pred := map } := by
      simp only [State.insertPred, hmap]
      rfl
    exact (bind_eq_ok_iff _ _ _).mpr ⟨_, hinsert, ih hrest⟩

/-- Insertions at new and different places. -/
theorem insertAmounts_of_new {map : HashMap Expr PermAmount}
    (hnew : ∀ item ∈ items, map.contains item.1 = false)
    (hdistinct : items.Pairwise fun left right => (left.1 == right.1) = false) :
    ∃ map', insertAmounts map items = .ok map' ∧ map'.entries = map.entries ++ items := by
  induction items generalizing map with
  | nil => exact ⟨map, rfl, (List.append_nil _).symm⟩
  | cons item items ih =>
    rw [List.pairwise_cons] at hdistinct
    have hitem := hnew item List.mem_cons_self
    have hinsert : insertAmount map item.1 item.2 = .ok (map.insert item.1 item.2) := by
      unfold insertAmount
      rw [(HashMap.contains_eq_false_iff _ _).mp hitem]
      rfl
    have hentries := HashMap.entries_insert_of_new hitem item.2
    obtain ⟨map', hmap', hall⟩ := @ih (map.insert item.1 item.2) (by
      intro other hother
      rw [HashMap.contains_eq_false_iff, HashMap.get?_insert, hdistinct.1 other hother]
      exact (HashMap.contains_eq_false_iff _ _).mp
        (hnew other (List.mem_cons_of_mem _ hother))) hdistinct.2
    refine ⟨map', (bind_eq_ok_iff _ _ _).mpr ⟨_, hinsert, hmap'⟩, ?_⟩
    rw [hall, hentries, List.append_assoc]
    rfl

/-- A way to rename the places below one place to places below another. -/
structure Renames (source target : Expr) (rename : Expr → Expr) : Prop where
  replaceEntries : ∀ entries : List (Expr × PermAmount),
    replaceEntries source target entries = .ok (entries.map fun entry => (rename entry.1, entry.2))
  rebased : ∀ place, place.hasPrefix source = true →
    (target == target) = true → Expr.Rebased source target place (rename place)

theorem exists_renames (hplace : source.isPlace = true)
    (hmatch : (Expr.typaramSubsts source target).isSome = true) :
    ∃ rename, Renames source target rename := by
  obtain ⟨substs, hsubsts⟩ := Option.isSome_iff_exists.mp hmatch
  refine ⟨fun place => (Expr.foldReplace substs source target place).1, ?_, ?_⟩
  · intro entries
    induction entries with
    | nil => rfl
    | cons entry entries ih =>
      have hhead : entry.1.replacePlace source target =
          some (Expr.foldReplace substs source target entry.1).1 := by
        rw [Expr.replacePlace, hsubsts]
        rfl
      rw [replaceEntries, List.mapM_cons, hhead]
      rw [replaceEntries] at ih
      rw [ih]
      rfl
  · intro place hbegins hself
    exact Expr.rebased_foldReplace hplace hself place hbegins

theorem isLocal_eq_false_of_hasProperPrefix {place above : Expr}
    (h : place.hasProperPrefix above = true) : place.isLocal = false := by
  obtain ⟨parent, hparent, _⟩ := (Expr.hasProperPrefix_iff_getParent _ _).mp h
  cases place <;> first | rfl | cases hparent

/-- The maps after permissions are lost at two places. -/
theorem losePermissions_losePermissions (source target : Expr) (state : State) :
    losePermissions target (losePermissions source state) =
      { state with
        acc := (state.acc.retain fun place =>
            !place.hasProperPrefix source).retain fun place =>
          !place.hasProperPrefix target
        pred := (state.pred.retain fun place =>
            !place.hasPrefix source).retain fun place =>
          !place.hasPrefix target } := by
  have hlocal : ∀ above : Expr, (fun place : Expr =>
      !(place.hasProperPrefix above && !place.isLocal)) =
        fun place => !place.hasProperPrefix above := by
    intro above
    funext place
    cases h : place.hasProperPrefix above with
    | false => rfl
    | true => rw [isLocal_eq_false_of_hasProperPrefix h]; rfl
  simp only [losePermissions, State.removeAccMatching, State.removePredMatching, hlocal]

/-- Taking the entries below `source` to below `target`, where there are
none. -/
theorem insertAmounts_moved {rename : Expr → Expr} (hrename : Renames source target rename)
    {below : Expr → Expr → Bool}
    (hbegins : ∀ place, below place source = true → place.hasPrefix source = true)
    (hbelow : ∀ place place', Expr.Rebased source target place place' →
      below place source = true → below place' target = true) {map : HashMap Expr PermAmount}
    (order : IterOrder) (index : Nat)
    (hself : ∀ entry ∈ map.entries, below entry.1 source = true → (target == target) = true)
    (hcongr : ∀ left right : Expr, (left == right) = true → below left target = below right target)
    (hempty : ∀ entry ∈ map.entries, below entry.1 target = false) :
    ∃ map', insertAmounts ((map.retain fun place =>
          !below place source).retain fun place => !below place target)
        (((order.iter index map.entries).filter fun entry =>
          below entry.1 source).map fun entry => (rename entry.1, entry.2)) =
        .ok map' ∧
      EntriesMoved (below · source) rename map.entries map'.entries := by
  have hrebased : ∀ entry ∈ (order.iter index map.entries).filter fun entry =>
      below entry.1 source, below entry.1 source = true ∧
        Expr.Rebased source target entry.1 (rename entry.1) := by
    intro entry hentry
    obtain ⟨hmem, hsource⟩ := List.mem_filter.mp hentry
    have hmem := (order.mem_iter index _ entry).mp hmem
    exact ⟨hsource, hrename.rebased entry.1 (hbegins entry.1 hsource) (hself entry hmem hsource)⟩
  have hnodup : (order.iter index map.entries).Pairwise fun left right =>
      (left.1 == right.1) = false :=
    ((order.iter_perm index map.entries).pairwise_iff fun h => BEq.comm.trans h).mpr map.nodup
  have hnew : ∀ item ∈ ((order.iter index map.entries).filter fun entry =>
      below entry.1 source).map fun entry => (rename entry.1, entry.2),
      ((map.retain fun place => !below place source).retain fun place =>
        !below place target).contains item.1 = false := by
    intro item hitem
    obtain ⟨entry, hentry, rfl⟩ := List.mem_map.mp hitem
    obtain ⟨hsource, hto⟩ := hrebased entry hentry
    rw [HashMap.contains_eq_false_iff, HashMap.get?_retain]
    · rw [hbelow _ _ hto hsource]
      rfl
    · intro left right heq
      rw [hcongr left right heq]
  have hdistinct : (((order.iter index map.entries).filter fun entry =>
      below entry.1 source).map fun entry =>
        (rename entry.1, entry.2)).Pairwise fun left right =>
          (left.1 == right.1) = false := by
    rw [List.pairwise_map]
    apply (hnodup.filter _).imp_of_mem
    intro left right hleft hright hne
    rw [Bool.eq_false_iff]
    intro heq
    have hsame := (hrebased left hleft).2.symm.beq (hrebased right hright).2.symm heq
    rw [hne] at hsame
    cases hsame
  obtain ⟨map', hmap', hentries⟩ := insertAmounts_of_new hnew hdistinct
  refine ⟨map', hmap', ?_⟩
  rw [EntriesMoved, hentries]
  have hkept : ((map.retain fun place => !below place source).retain
      fun place => !below place target).entries =
        map.entries.filter fun entry => !below entry.1 source := by
    apply List.filter_eq_self.mpr
    intro entry hentry
    change (!below entry.1 target) = true
    rw [hempty entry (List.mem_filter.mp hentry).1]
    rfl
  rw [hkept]
  exact List.Perm.append_left _ (((order.iter_perm index map.entries).filter _).map _)

/-- The permissions below `source` are now below `target`. -/
structure PermsMoved (source : Expr) (rename : Expr → Expr) (original moved : State) : Prop where
  acc : EntriesMoved (·.hasProperPrefix source) rename original.acc.entries moved.acc.entries
  pred : EntriesMoved (·.hasPrefix source) rename original.pred.entries moved.pred.entries

/-- Nothing is held below a place. -/
structure NoneBelow (state : State) (place : Expr) : Prop where
  acc : ∀ entry ∈ state.acc.entries, entry.1.hasProperPrefix place = false
  pred : ∀ entry ∈ state.pred.entries, entry.1.hasPrefix place = false

/-- The step that a borrow and its expiry have in common. -/
theorem exists_permsMoved {rename : Expr → Expr} (hrename : Renames source target rename)
    (order : IterOrder) {state : State} (hempty : NoneBelow state target)
    (hselfAcc : ∀ entry ∈ state.acc.entries,
      entry.1.hasProperPrefix source = true → (target == target) = true)
    (hselfPred : ∀ entry ∈ state.pred.entries,
      entry.1.hasPrefix source = true → (target == target) = true) (moved : HashSet Expr) :
    ∃ accItems predItems acc pred,
      movedAccEntries order state source target = .ok accItems ∧
      movedPredEntries order state source target = .ok predItems ∧
      (losePermissions target (losePermissions source
        { state with moved })).insertAllAcc accItems =
          .ok { losePermissions target (losePermissions source
            { state with moved }) with acc } ∧
      State.insertAllPred { losePermissions target (losePermissions source
        { state with moved }) with acc } predItems = .ok { state with moved, acc, pred } ∧
      PermsMoved source rename state { state with moved, acc, pred } := by
  obtain ⟨acc, hacc, haccMoved⟩ := @insertAmounts_moved _ _ _ hrename
    Expr.hasProperPrefix (fun _ => Expr.hasPrefix_of_hasProperPrefix)
    (fun _ _ h => h.hasProperPrefix_iff.mpr) _ order 0 hselfAcc
    (fun _ _ h => Expr.hasProperPrefix_congr_left h _) hempty.acc
  obtain ⟨pred, hpred, hpredMoved⟩ := @insertAmounts_moved _ _ _ hrename
    Expr.hasPrefix (fun _ h => h)
    (fun _ _ h _ => h.symm.hasPrefix) _ order 1 hselfPred
    (fun _ _ h => Expr.hasPrefix_congr_left h _) hempty.pred
  refine ⟨((order.iter 0 state.acc.entries).filter fun entry =>
      entry.1.hasProperPrefix source).map fun entry => (rename entry.1, entry.2),
    _, acc, pred, ?_, hrename.replaceEntries _, ?_, ?_, haccMoved, hpredMoved⟩
  · rw [movedAccEntries, hrename.replaceEntries]
    change Except.ok _ = _
    rw [List.filter_eq_self.mpr]
    intro item hitem
    obtain ⟨entry, hentry, rfl⟩ := List.mem_map.mp hitem
    obtain ⟨hmem, hbelow⟩ := List.mem_filter.mp hentry
    have hself := hselfAcc entry ((order.mem_iter 0 _ entry).mp hmem) hbelow
    have hto := hrename.rebased entry.1 (Expr.hasPrefix_of_hasProperPrefix hbelow) hself
    change (!(rename entry.1).isLocal) = true
    rw [isLocal_eq_false_of_hasProperPrefix (hto.hasProperPrefix_iff.mpr hbelow)]
    rfl
  · apply State.insertAllAcc_of_insertAmounts
    rw [losePermissions_losePermissions]
    exact hacc
  · rw [losePermissions_losePermissions]
    exact State.insertAllPred_of_insertAmounts hpred

/-- A state in which `lhs` may become a mutable borrow of `rhs`. -/
structure MayBorrow (state : State) (lhs rhs : Expr) : Prop where
  consistent : state.checkConsistency = true
  lhsPlace : lhs.isPlace = true
  rhsPlace : rhs.isPlace = true
  lhsCurr : lhs.isCurr = true
  rhsCurr : rhs.isCurr = true
  lhsRef : ∃ name, lhs.getType = some (.typedRef name)
  rhsRef : ∃ name, rhs.getType = some (.typedRef name) ∧
    "Array$".toList.isPrefixOf name.toList = false
  lhsApart : lhs.hasPrefix rhs = false
  rhsApart : rhs.hasPrefix lhs = false
  lhsAcc : state.containsAcc lhs = true
  lhsPred : state.containsPred lhs = false
  accBelow : ∀ place ∈ state.accPlaces, place.hasProperPrefix lhs = false
  predBelow : ∀ place ∈ state.predPlaces, place.hasProperPrefix lhs = false
  rhsUnfolded : ∀ pfx ∈ rhs.allProperPrefixes, state.containsPred pfx = false
  movedBelow : ∀ place ∈ state.moved.keys, place.hasProperPrefix rhs = false

/-- The borrow and its expiry succeed, and the permissions are as before. -/
def GivesBack (env : Env) (order order' : IterOrder) (state : State)
    (lhs rhs : Expr) (borrow : Borrow) (unchecked : Bool) : Prop :=
  ∃ borrowed expired,
    applyOnState env order (.assign lhs rhs (.mutableBorrow borrow)) state = .ok borrowed ∧
    applyOnState env order' (.transferPerm lhs rhs unchecked) borrowed = .ok expired ∧
    (∀ place, expired.acc.get? place = state.acc.get? place) ∧
    (∀ place, expired.pred.get? place = state.pred.get? place) ∧
    ∀ place ∈ expired.moved.keys, place.hasPrefix rhs = false

/-- Places that are not both local variables, or whose type names match in
both directions, as those of one type do. -/
def TypesMatch (lhs rhs : Expr) : Prop :=
  (Expr.typaramSubsts rhs lhs).isSome = true ∧ (Expr.typaramSubsts lhs rhs).isSome = true

theorem retain_eq_self {α β : Type} [BEq α] {map : HashMap α β}
    {keep : α → Bool} (h : ∀ entry ∈ map.entries, keep entry.1 = true) :
    map.retain keep = map := by
  cases map
  unfold HashMap.retain
  congr
  exact List.filter_eq_self.mpr h

section

variable {env : Env} {order order' : IterOrder} {state : State} {lhs rhs : Expr}
  {borrow : Borrow} {unchecked : Bool}

section

variable (h : MayBorrow state lhs rhs)

include h

theorem MayBorrow.noneBelow : NoneBelow state lhs where
  acc entry hentry := h.accBelow entry.1 (List.mem_map_of_mem hentry)
  pred entry hentry := by
    have hproper := h.predBelow entry.1 (List.mem_map_of_mem hentry)
    rw [Bool.eq_false_iff]
    intro hbegins
    cases heq : entry.1 == lhs with
    | true =>
      have hget := HashMap.get?_of_mem hentry heq
      have hcontains := (HashMap.contains_iff _ _).mpr ⟨_, hget⟩
      have hnot := h.lhsPred
      rw [State.containsPred, hcontains] at hnot
      cases hnot
    | false =>
      rw [(Expr.hasProperPrefix_iff _ _).mpr ⟨heq, hbegins⟩] at hproper
      cases hproper

/-- The effect of the borrow on a state that allows it. -/
theorem applyAssign_of_mayBorrow (hmoved : state.isPrefixOfSomeMoved rhs = false) :
    applyOnState env order (.assign lhs rhs (.mutableBorrow borrow)) state =
      (do
        let newAccPlaces ← movedAccEntries order state rhs lhs
        let state' ← (losePermissions lhs (losePermissions rhs
          (state.removeMovedMatching fun place =>
            place.hasPrefix lhs))).insertAllAcc newAccPlaces
        let newPredPlaces ← movedPredEntries order state rhs lhs
        let state' ← state'.insertAllPred newPredPlaces
        pure (state'.insertMoved rhs)) := by
  obtain ⟨name, htype, _⟩ := h.rhsRef
  have hpred : (state.pred.retain fun place => !place.hasPrefix lhs) = state.pred :=
    retain_eq_self fun entry hentry => by rw [h.noneBelow.pred entry hentry]; rfl
  have hacc : (state.acc.retain fun place => !place.hasProperPrefix lhs) = state.acc :=
    retain_eq_self fun entry hentry => by rw [h.noneBelow.acc entry hentry]; rfl
  have hunfolded : (rhs.allProperPrefixes.all fun pfx =>
      !state.containsPred pfx) = true :=
    List.all_eq_true.mpr fun pfx hpfx => by rw [h.rhsUnfolded pfx hpfx]; rfl
  change applyAssign _ _ _ _ _ _ = _
  have hself : env.debugAssert true = .ok () := (debugAssert_eq_ok_iff _ _).mpr fun _ => rfl
  unfold applyAssign
  rw [h.lhsPlace, h.rhsPlace, htype, hmoved, hunfolded, h.rhsApart, hself]
  simp only [State.removeMovedMatching, State.removePredMatching,
    State.removeAccMatching, hpred, hacc]
  rfl

/-- The effect of the expiry on a state with access to the reference. -/
theorem applyTransferPerm_of_containsAcc {borrowed : State}
    (hacc : borrowed.containsAcc lhs = true) :
    applyOnState env order (.transferPerm lhs rhs unchecked) borrowed =
      (do
        let newAccPlaces ← movedAccEntries order borrowed lhs rhs
        let newPredPlaces ← movedPredEntries order borrowed lhs rhs
        let state' ← (losePermissions rhs (losePermissions lhs
          (borrowed.removeMovedMatching fun place =>
            place.hasPrefix rhs))).insertAllAcc newAccPlaces
        let state' ← state'.insertAllPred newPredPlaces
        pure (if unchecked then state' else state'.insertMoved lhs)) := by
  obtain ⟨lhsName, hlhsType⟩ := h.lhsRef
  obtain ⟨rhsName, hrhsType, harray⟩ := h.rhsRef
  have hbegins : borrowed.isPrefixOfSomeAcc lhs = true := by
    obtain ⟨_, hget⟩ := (HashMap.contains_iff _ _).mp hacc
    obtain ⟨other, hother, heq⟩ := HashMap.exists_key_of_get? hget
    exact List.any_eq_true.mpr ⟨other, hother, Expr.hasPrefix_of_beq heq⟩
  have hassert : env.debugAssert (!lhs.isSimplePlace ||
      borrowed.isPrefixOfSomeAcc lhs || borrowed.isPrefixOfSomePred lhs) = .ok () := by
    rw [debugAssert_eq_ok_iff, hbegins]
    simp
  have hlhsOld : lhs.isOld = false := by simpa [Expr.isCurr] using h.lhsCurr
  have hrhsOld : rhs.isOld = false := by simpa [Expr.isCurr] using h.rhsCurr
  have htransfer : ∀ state' : State, transferAcc lhs rhs state' = .ok state' := by
    intro state'
    simp [transferAcc, hlhsOld, hrhsOld]
  have hlhs : orPanic lhs.getType = .ok (.typedRef lhsName) := by
    rw [hlhsType]
    rfl
  have hrhs : orPanic rhs.getType = .ok (.typedRef rhsName) := by
    rw [hrhsType]
    rfl
  have hsame : assert ((Typ.typedRef lhsName).isRef &&
      (Typ.typedRef rhsName).isRef && Typ.typedRef lhsName == Typ.typedRef rhsName) = .ok () := rfl
  change applyTransferPerm _ _ _ _ _ _ = _
  unfold applyTransferPerm
  rw [hassert, hlhs, hrhs]
  cases env.debug <;> cases unchecked <;>
    simp only [ok_bind, hsame, Typ.name, harray, htransfer, h.lhsApart] <;> rfl

theorem MayBorrow.isPrefixOfSomeMoved_eq_false (hmoved : state.moved.contains rhs = false) :
    state.isPrefixOfSomeMoved rhs = false := by
  apply List.any_eq_false.mpr
  intro place hplace
  have hne : (place == rhs) = false := by
    obtain ⟨entry, hentry, rfl⟩ := List.mem_map.mp hplace
    have hall := List.any_eq_false.mp hmoved entry hentry
    simpa using hall
  have hproper := h.movedBelow place hplace
  intro hbegins
  rw [(Expr.hasProperPrefix_iff _ _).mpr ⟨hne, hbegins⟩] at hproper
  cases hproper

/-- No place lies below both places of a borrow. -/
theorem MayBorrow.not_below_both {place : Expr} (hlhs : place.hasPrefix lhs = true) :
    place.hasPrefix rhs = false := by
  rw [Bool.eq_false_iff]
  intro hrhs
  rcases Expr.hasPrefix_total hlhs hrhs with hbegins | hbegins
  · rw [h.lhsApart] at hbegins
    cases hbegins
  · rw [h.rhsApart] at hbegins
    cases hbegins

/-- What the borrow leaves is ready for the expiry. -/
theorem MayBorrow.noneBelow_rhs {rename : Expr → Expr} {borrowed : State}
    (hrebased : ∀ place, place.hasPrefix rhs = true → Expr.Rebased rhs lhs place (rename place))
    (hmoved : PermsMoved rhs rename state borrowed) :
    NoneBelow borrowed rhs where
  acc entry hentry := by
    rcases hmoved.acc.mem hentry with ⟨_, hkept⟩ | ⟨old, _, hbelow, hname⟩
    · exact hkept
    · have hto := hrebased old.1 (Expr.hasPrefix_of_hasProperPrefix hbelow)
      have hnot := h.not_below_both hto.symm.hasPrefix
      rw [hname, Expr.hasProperPrefix, hnot, Bool.and_false]
  pred entry hentry := by
    rcases hmoved.pred.mem hentry with ⟨_, hkept⟩ | ⟨old, _, hbelow, hname⟩
    · exact hkept
    · rw [hname]
      exact h.not_below_both (hrebased old.1 hbelow).symm.hasPrefix

/-- The access to the reference is still there after the borrow. -/
theorem MayBorrow.containsAcc_lhs {rename : Expr → Expr} {borrowed : State}
    (hmoved : PermsMoved rhs rename state borrowed) : borrowed.containsAcc lhs = true := by
  obtain ⟨entry, hentry, heq⟩ := List.any_eq_true.mp h.lhsAcc
  have hkept : entry.1.hasProperPrefix rhs = false := by
    rw [Expr.hasProperPrefix_congr_left heq, Expr.hasProperPrefix, h.lhsApart, Bool.and_false]
  apply List.any_eq_true.mpr
  refine ⟨entry, ?_, heq⟩
  apply hmoved.acc.mem_iff.mpr
  apply List.mem_append_left
  exact List.mem_filter.mpr ⟨hentry, by simp [hkept]⟩

end

/-- A borrow and its expiry are inverse to each other on permissions. -/
theorem borrow_givesBack (env : Env) (order order' : IterOrder)
    (state : State) (lhs rhs : Expr) (borrow : Borrow) (unchecked : Bool)
    (h : MayBorrow state lhs rhs) (hmoved : state.moved.contains rhs = false)
    (hmatch : TypesMatch lhs rhs) :
    GivesBack env order order' state lhs rhs borrow unchecked := by
  obtain ⟨rename, hrename⟩ := exists_renames h.rhsPlace hmatch.1
  obtain ⟨rename', hrename'⟩ := exists_renames h.lhsPlace hmatch.2
  have hlhsSelf : (lhs == lhs) = true := by
    obtain ⟨entry, _, heq⟩ := List.any_eq_true.mp h.lhsAcc
    exact BEq.trans (BEq.symm heq) heq
  have hrebased := fun place hbegins => hrename.rebased place hbegins hlhsSelf
  -- The borrow: from below `rhs` to below `lhs`.
  obtain ⟨accItems, predItems, acc, pred, haccItems, hpredItems, hacc, hpred,
      hforth⟩ := exists_permsMoved hrename order h.noneBelow
    (fun _ _ _ => hlhsSelf) (fun _ _ _ => hlhsSelf)
    (state.moved.retain fun place => !place.hasPrefix lhs)
  have hborrow := @applyAssign_of_mayBorrow env order state lhs rhs borrow h
    (h.isPrefixOfSomeMoved_eq_false hmoved)
  rw [haccItems, hpredItems] at hborrow
  simp only [ok_bind, State.removeMovedMatching, hacc, hpred] at hborrow
  -- The expiry: from below `lhs` to below `rhs`.
  let borrowed := State.insertMoved { state with
    moved := state.moved.retain fun place => !place.hasPrefix lhs
    acc, pred } rhs
  have hborrowed : PermsMoved rhs rename state borrowed := ⟨hforth.acc, hforth.pred⟩
  obtain ⟨accItems', predItems', acc', pred', haccItems', hpredItems', hacc',
      hpred', hback⟩ := exists_permsMoved hrename' order'
    (h.noneBelow_rhs hrebased hborrowed)
    (fun entry hentry hbelow => by
      obtain ⟨old, _, hold⟩ :=
        @EntriesMoved.exists_below _ _ _ (·.hasProperPrefix lhs) _ _ _
          hborrowed.acc h.noneBelow.acc entry hentry hbelow
      exact Expr.beq_self_of_hasPrefix (Expr.hasPrefix_of_hasProperPrefix hold))
    (fun entry hentry hbelow => by
      obtain ⟨old, _, hold⟩ :=
        @EntriesMoved.exists_below _ _ _ (·.hasPrefix lhs) _ _ _
          hborrowed.pred h.noneBelow.pred entry hentry hbelow
      exact Expr.beq_self_of_hasPrefix hold)
    (borrowed.moved.retain fun place => !place.hasPrefix rhs)
  have hexpire := @applyTransferPerm_of_containsAcc env order' state lhs rhs
    unchecked h borrowed (h.containsAcc_lhs hborrowed)
  rw [haccItems', hpredItems'] at hexpire
  simp only [ok_bind, State.removeMovedMatching, hacc', hpred'] at hexpire
  refine ⟨borrowed, _, hborrow, hexpire, ?_, ?_, ?_⟩
  · intro place
    have hget := hborrowed.acc.get?_back hback.acc h.noneBelow.acc
      (fun entry _ hbelow => (hrebased entry.1
        (Expr.hasPrefix_of_hasProperPrefix hbelow)).hasProperPrefix_iff.mpr hbelow)
      (fun entry _ hbelow => by
        have hbegins := Expr.hasPrefix_of_hasProperPrefix hbelow
        have hto := hrebased entry.1 hbegins
        exact hto.beq_of_back (hrename'.rebased _ hto.symm.hasPrefix
          (Expr.beq_self_of_hasPrefix hbegins)))
      (fun _ _ heq => Expr.hasProperPrefix_congr_left heq _) place
    cases unchecked <;> exact hget
  · intro place
    have hget := hborrowed.pred.get?_back hback.pred h.noneBelow.pred
      (fun entry _ hbelow => (hrebased entry.1 hbelow).symm.hasPrefix)
      (fun entry _ hbelow => by
        have hto := hrebased entry.1 hbelow
        exact hto.beq_of_back (hrename'.rebased _ hto.symm.hasPrefix
          (Expr.beq_self_of_hasPrefix hbelow)))
      (fun _ _ heq => Expr.hasPrefix_congr_left heq _) place
    cases unchecked <;> exact hget
  · intro place hplace
    have hkept : ∀ other ∈ (borrowed.moved.retain fun place =>
        !place.hasPrefix rhs).keys, other.hasPrefix rhs = false := by
      intro other hother
      simpa using ((HashMap.mem_keys_retain _ _ _).mp hother).2
    cases unchecked with
    | true => exact hkept place hplace
    | false =>
      obtain ⟨entry, hentry, rfl⟩ := List.mem_map.mp hplace
      rcases HashMap.mem_entries_insert hentry with ⟨old, hold, hsame⟩ | hnew
      · rw [← hsame]
        exact hkept old.1 (List.mem_map_of_mem hold)
      · rw [hnew]
        exact h.lhsApart

end

namespace Witness

/-- A pair, and a reference to a pair. -/
def lentVar : Expr := .localVar ⟨"_1", .typedRef "Pair"⟩ Position.default

def lentFirst : Expr := .field lentVar ⟨"f$first", .typedRef "i32"⟩ Position.default

def refVar : Expr := .localVar ⟨"_2", .typedRef "ref$Pair"⟩ Position.default

def refTarget : Expr := .field refVar ⟨"val_ref", .typedRef "Pair"⟩ Position.default

/-- The first field of the pair is unfolded and holds a predicate. -/
def lentPair : State :=
  State.new
    (HashMap.ofList [(lentVar, .write), (lentFirst, .write), (refVar, .write), (refTarget, .write)])
    (HashMap.ofList [(lentFirst, .write)]) HashMap.empty

/-- The pair was moved out. -/
def movedPair : State :=
  State.new (HashMap.ofList [(lentVar, .write), (refVar, .write), (refTarget, .write)])
    HashMap.empty (HashSet.ofList [lentVar])

/-- The first field of the pair is unfolded, below two local variables of
different types. -/
def unfoldedVars : State :=
  State.new (HashMap.ofList [(lentVar, .write), (lentFirst, .write), (refVar, .write)])
    HashMap.empty HashMap.empty

def noPredicates : Env := ⟨fun _ => none, true⟩

theorem mayBorrow_lentPair : MayBorrow lentPair refTarget lentVar := by
  constructor <;> first | decide | exact ⟨_, rfl⟩ | exact ⟨_, rfl, by decide⟩

/-- A place that was moved out itself is refused, and local variables with
type names that do not match stop the replacement of one by the other. -/
theorem mayBorrow_not_givesBack :
    (MayBorrow movedPair refTarget lentVar ∧
      ∀ borrow unchecked, ¬ GivesBack noPredicates IterOrder.identity
        IterOrder.identity movedPair refTarget lentVar borrow unchecked) ∧
    MayBorrow unfoldedVars refVar lentVar ∧
      ∀ borrow unchecked, ¬ GivesBack noPredicates IterOrder.identity
        IterOrder.identity unfoldedVars refVar lentVar borrow unchecked := by
  refine ⟨⟨?_, ?_⟩, ?_, ?_⟩
  · constructor <;> first | decide | exact ⟨_, rfl⟩ | exact ⟨_, rfl, by decide⟩
  · intro borrow unchecked ⟨_, _, hborrow, _⟩
    cases hborrow
  · constructor <;> first | decide | exact ⟨_, rfl⟩ | exact ⟨_, rfl, by decide⟩
  · intro borrow unchecked ⟨_, _, hborrow, _⟩
    cases hborrow

/-- The permission to the field goes to the reference and comes back. -/
theorem borrow_givesBack_lentPair :
    GivesBack noPredicates IterOrder.identity IterOrder.identity lentPair
      refTarget lentVar ⟨0⟩ false :=
  borrow_givesBack noPredicates _ _ lentPair refTarget lentVar ⟨0⟩ false
    mayBorrow_lentPair (by decide) ⟨rfl, rfl⟩

end Witness

end Prusti.FoldUnfold

/-
The difference of two sets of permissions.  It is documented to take into
account that removing `x.f` also removes `x.f.g.h`; what is proved here is when
it does so.
-/
import Prusti.FoldUnfold.Perm

namespace Prusti.Lib.HashMap

variable {α β : Type} [BEq α] [PartialEquivBEq α]

/-- The entries at a key are what is looked up there. -/
theorem exists_entry_iff (map : HashMap α β) (key : α) (value : β) :
    (∃ entry ∈ map.entries, (entry.1 == key) = true ∧ entry.2 = value) ↔
      map.get? key = some value := by
  constructor
  · rintro ⟨entry, hmem, hkey, rfl⟩
    exact get?_of_mem hmem hkey
  · intro h
    exact exists_mem_of_lookup_eq_some h

omit [PartialEquivBEq α] in
/-- The members of a set, as they stand in its entries. -/
theorem contains_iff_keys (set : HashMap α β) (key : α) :
    set.contains key = true ↔ ∃ other ∈ set.keys, (other == key) = true := by
  unfold contains keys
  simp only [List.any_eq_true, List.mem_map, exists_exists_and_eq_and]

end Prusti.Lib.HashMap

namespace Prusti.FoldUnfold

open Prusti.Vir Prusti.Lib

/-- The permission of one kind to a place. -/
def Kind.perm (kind : Kind) (place : Expr) (amount : PermAmount) : Perm :=
  match kind with
  | .acc => .acc place amount
  | .pred => .pred place amount

namespace Kind

variable (kind : Kind) (place : Expr) (amount : PermAmount)

@[simp] theorem kind_perm : (kind.perm place amount).kind = kind := by
  cases kind <;> rfl

@[simp] theorem getPlace_perm : (kind.perm place amount).getPlace = place := by
  cases kind <;> rfl

@[simp] theorem getPermAmount_perm : (kind.perm place amount).getPermAmount = amount := by
  cases kind <;> rfl

theorem perm_eta (perm : Perm) : perm.kind.perm perm.getPlace perm.getPermAmount = perm := by
  cases perm <;> rfl

end Kind

/-- At most one amount for each place and kind. -/
def OneAmount (perms : HashSet Perm) : Prop :=
  ∀ perm other, perms.contains perm = true → perms.contains other = true →
    perm.kind = other.kind → (perm.getPlace == other.getPlace) = true →
    perm.getPermAmount = other.getPermAmount

/-- The full amount covers every amount, and each amount covers itself. -/
def PermAmount.covers (held wanted : PermAmount) : Bool := held == .write || held == wanted

/-- The permissions that the documentation keeps: those of `left` with no
prefix that `right` holds, as a permission of the same kind, with an amount that
covers theirs. -/
def NotCovered (left right : HashSet Perm) (perm : Perm) : Prop :=
  left.contains perm = true ∧
    ∀ other, right.contains other = true → other.kind = perm.kind →
      perm.getPlace.hasPrefix other.getPlace = true →
      PermAmount.covers other.getPermAmount perm.getPermAmount = false

/-- The difference is computed, and it keeps what is documented. -/
def DifferenceAsDocumented (left right : HashSet Perm) : Prop :=
  ∃ result, permDifference left right = .ok result ∧
    ∀ perm, result.contains perm = true ↔ NotCovered left right perm

/-- The pairs of amounts that the code has a case for. -/
def comparable (left right : PermAmount) : Bool :=
  match left, right with
  | .read, .read | .read, .write | .write, .write => true
  | _, _ => false

/-- Places that both sides hold have amounts that the code has a case for, and
what `right` holds above a permission and covers it, it also holds at the place
itself. -/
def CoveredAtPlace (left right : HashSet Perm) : Prop :=
  ∀ perm other, left.contains perm = true → right.contains other = true →
    other.kind = perm.kind →
    ((perm.getPlace == other.getPlace) = true →
      comparable perm.getPermAmount other.getPermAmount = true) ∧
    (perm.getPlace.hasProperPrefix other.getPlace = true →
      PermAmount.covers other.getPermAmount perm.getPermAmount = true →
      ∃ same, right.contains same = true ∧ same.kind = perm.kind ∧
        (perm.getPlace == same.getPlace) = true)

/-- Comparable amounts cover each other in the order of the difference. -/
theorem covers_of_comparable {left right : PermAmount} (h : comparable left right = true) :
    PermAmount.covers right left = true := by
  revert h
  cases left <;> cases right <;> decide

theorem beq_self_of_contains {perms : HashSet Perm} {perm : Perm}
    (h : perms.contains perm = true) : (perm == perm) = true := by
  obtain ⟨other, -, hother⟩ := (HashMap.contains_iff_keys perms perm).mp h
  exact BEq.trans (BEq.symm hother) hother

section Amounts

variable {perms : HashSet Perm}

/-- In a set with one amount for each place the amounts of one kind are at
places that are pairwise different. -/
theorem pairwise_amounts (hone : OneAmount perms) (kind : Kind) :
    ((perms.keys.filter fun perm => perm.kind == kind).map fun perm =>
      (perm.getPlace, perm.getPermAmount)).Pairwise
        fun left right => (left.1 == right.1) = false := by
  have hkeys : perms.keys.Pairwise fun left right => (left == right) = false :=
    List.pairwise_map.mpr perms.nodup
  rw [List.pairwise_map, List.pairwise_filter]
  have hmem : perms.keys.Pairwise fun left right =>
      left ∈ perms.keys ∧ right ∈ perms.keys :=
    List.Pairwise.and_mem.mp hkeys |>.imp fun h => ⟨h.1, h.2.1⟩
  refine hkeys.imp₂ ?_ hmem
  intro left right hne ⟨hleft, hright⟩ hleftKind hrightKind
  rw [Bool.eq_false_iff]
  intro hplace
  have hkind : left.kind = right.kind := by
    rw [eq_of_beq hleftKind, eq_of_beq hrightKind]
  have hself : (left == left) = true := (Perm.beq_iff _ _).mpr
    ⟨rfl, BEq.trans hplace (BEq.symm hplace), rfl⟩
  have hself' : (right == right) = true := (Perm.beq_iff _ _).mpr
    ⟨rfl, BEq.trans (BEq.symm hplace) hplace, rfl⟩
  have hamount := hone left right ((HashMap.contains_iff_keys perms left).mpr ⟨left, hleft, hself⟩)
    ((HashMap.contains_iff_keys perms right).mpr ⟨right, hright, hself'⟩)
    hkind hplace
  rw [(Perm.beq_iff left right).mpr ⟨hkind, hplace, hamount⟩] at hne
  cases hne

/-- The amounts of one kind are the permissions of that kind. -/
theorem get?_amountsOf (hone : OneAmount perms) (kind : Kind) (place : Expr) (amount : PermAmount) :
    (amountsOf kind perms.keys).get? place = some amount ↔
      perms.contains (kind.perm place amount) = true := by
  have hpairs := pairwise_amounts hone kind
  rw [amountsOf, HashMap.get?_ofList hpairs]
  rw [show lookup _ place = HashMap.get? ⟨_, hpairs⟩ place from rfl]
  rw [← HashMap.exists_entry_iff, HashMap.contains_iff_keys]
  simp only [List.mem_map, List.mem_filter, exists_exists_and_eq_and,
    Perm.beq_iff, Kind.kind_perm, Kind.getPlace_perm, Kind.getPermAmount_perm, beq_iff_eq]
  exact exists_congr fun perm => and_assoc

/-- The permissions that a set holds, as amounts. -/
theorem contains_eq_get? (hone : OneAmount perms) (perm : Perm) :
    perms.contains perm = true ↔
      (amountsOf perm.kind perms.keys).get? perm.getPlace = some perm.getPermAmount := by
  rw [get?_amountsOf hone, Kind.perm_eta]

end Amounts

section Places

variable {left right : HashMap Expr PermAmount}

/-- The difference by place, with its case analysis as a test. -/
theorem placePermDifference_eq :
    placePermDifference left right =
      if right.entries.all fun entry =>
        (left.get? entry.1).all fun wanted => comparable wanted entry.2
      then .ok (left.retain fun place => !right.contains place)
      else .error .panic := by
  unfold placePermDifference
  congr 3
  funext entry
  cases left.get? entry.1 with
  | none => rfl
  | some wanted => cases wanted <;> cases entry.2 <;> rfl

theorem all_comparable_iff :
    (right.entries.all fun entry =>
      (left.get? entry.1).all fun wanted => comparable wanted entry.2) = true ↔
      ∀ place held wanted, left.get? place = some wanted →
        right.get? place = some held → comparable wanted held = true := by
  rw [List.all_eq_true]
  constructor
  · intro h place held wanted hwanted hheld
    obtain ⟨entry, hmem, hkey, rfl⟩ := (HashMap.exists_entry_iff right place held).mpr hheld
    have hentry := h entry hmem
    rw [HashMap.get?_congr left hkey, hwanted] at hentry
    exact hentry
  · intro h entry hmem
    cases hwanted : left.get? entry.1 with
    | none => rfl
    | some wanted =>
      obtain ⟨other, -, hother⟩ := HashMap.exists_key_of_get? hwanted
      have hheld := HashMap.get?_of_mem hmem (BEq.trans (BEq.symm hother) hother)
      exact h entry.1 entry.2 wanted hwanted hheld

/-- The difference by place returns if the amounts met are comparable. -/
theorem placePermDifference_eq_ok_iff (result : HashMap Expr PermAmount) :
    placePermDifference left right = .ok result ↔
      (∀ place held wanted, left.get? place = some wanted →
        right.get? place = some held → comparable wanted held = true) ∧
      result = left.retain fun place => !right.contains place := by
  rw [placePermDifference_eq, ← all_comparable_iff]
  split
  · next h => simp [h, eq_comm]
  · next h => simp [h]

/-- The difference by place keeps the amounts at the other places. -/
theorem get?_retain_not_contains (place : Expr) :
    (left.retain fun place => !right.contains place).get? place =
      if right.contains place then none else left.get? place := by
  rw [HashMap.get?_retain left _ fun place place' h => by
    rw [HashMap.contains_congr right h]]
  cases right.contains place <;> rfl

end Places

section Difference

variable {left right : HashSet Perm}

/-- The amounts met at the places of one kind are comparable. -/
def ComparableAt (left right : HashSet Perm) (kind : Kind) : Prop :=
  ∀ perm other, left.contains perm = true → right.contains other = true →
    perm.kind = kind → other.kind = kind →
    (perm.getPlace == other.getPlace) = true →
    comparable perm.getPermAmount other.getPermAmount = true

theorem comparableAt_iff (hleft : OneAmount left) (hright : OneAmount right) (kind : Kind) :
    (∀ place held wanted,
      (amountsOf kind left.keys).get? place = some wanted →
      (amountsOf kind right.keys).get? place = some held →
      comparable wanted held = true) ↔ ComparableAt left right kind := by
  simp only [get?_amountsOf hleft, get?_amountsOf hright]
  constructor
  · intro h perm other hperm hother hkind hkind' hplace
    refine h perm.getPlace _ _ ?_ ?_
    · rw [← hkind, Kind.perm_eta]
      exact hperm
    · have hsame : (kind.perm perm.getPlace other.getPermAmount == other) = true := by
        rw [Perm.beq_iff]
        simpa [hkind'] using hplace
      rw [HashMap.contains_congr right hsame]
      exact hother
  · intro h place held wanted hwanted hheld
    have hself := ((Perm.beq_iff _ _).mp (beq_self_of_contains hheld)).2.1
    simpa using h _ _ hwanted hheld (by simp) (by simp) (by simpa using hself)

/-- The permissions of one kind that stay are those of `left` at whose place
`right` holds nothing. -/
theorem get?_kept (hleft : OneAmount left) (hright : OneAmount right) (perm : Perm) :
    ((amountsOf perm.kind left.keys).retain fun place =>
        !(amountsOf perm.kind right.keys).contains place).get? perm.getPlace =
          some perm.getPermAmount ↔
      left.contains perm = true ∧
        ∀ other, right.contains other = true → other.kind = perm.kind →
          (perm.getPlace == other.getPlace) = false := by
  rw [get?_retain_not_contains]
  have hheld : (amountsOf perm.kind right.keys).contains perm.getPlace = true ↔
      ∃ other, right.contains other = true ∧ other.kind = perm.kind ∧
        (perm.getPlace == other.getPlace) = true := by
    rw [HashMap.contains_iff]
    simp only [get?_amountsOf hright]
    constructor
    · rintro ⟨amount, hamount⟩
      have hself := ((Perm.beq_iff _ _).mp (beq_self_of_contains hamount)).2.1
      exact ⟨_, hamount, by simp, by simpa using hself⟩
    · rintro ⟨other, hother, hkind, hplace⟩
      refine ⟨other.getPermAmount, ?_⟩
      have hsame : (perm.kind.perm perm.getPlace other.getPermAmount == other) = true := by
        rw [Perm.beq_iff]
        simpa [hkind] using hplace
      rw [HashMap.contains_congr right hsame]
      exact hother
  split
  · next h =>
      obtain ⟨other, hother, hkind, hplace⟩ := hheld.mp h
      constructor
      · intro hnone
        cases hnone
      · rintro ⟨-, hnone⟩
        rw [hnone other hother hkind] at hplace
        cases hplace
  · next h =>
      rw [← contains_eq_get? hleft, iff_self_and]
      intro _ other hother hkind
      rw [Bool.eq_false_iff]
      intro hplace
      exact h (hheld.mpr ⟨other, hother, hkind, hplace⟩)

/-- The permissions that the code keeps. -/
def Kept (left right : HashSet Perm) (perm : Perm) : Prop :=
  left.contains perm = true ∧
    ∀ other, right.contains other = true → other.kind = perm.kind →
      (perm.getPlace == other.getPlace) = false

/-- The permissions made from two maps of amounts. -/
theorem contains_ofList_perms (acc pred : HashMap Expr PermAmount) (perm : Perm) :
    (HashSet.ofList (acc.entries.map (fun entry => Perm.acc entry.1 entry.2) ++
        pred.entries.map fun entry => Perm.pred entry.1 entry.2)).contains
          perm = true ↔
      (match perm.kind with | .acc => acc | .pred => pred).get?
        perm.getPlace = some perm.getPermAmount := by
  rw [HashSet.ofList, HashSet.contains_foldl_insert, ← HashMap.exists_entry_iff]
  cases perm with
  | acc place amount =>
    simp [HashMap.contains, HashMap.empty, Perm.beq_iff, Perm.kind,
      Perm.getPlace, Perm.getPermAmount]
  | pred place amount =>
    simp [HashMap.contains, HashMap.empty, Perm.beq_iff, Perm.kind,
      Perm.getPlace, Perm.getPermAmount]

/-- What the difference does: it returns if the amounts met at the same places
are comparable, and it then keeps the permissions at the other places. -/
theorem permDifference_spec (hleft : OneAmount left) (hright : OneAmount right)
    (property : Perm → Prop) :
    (∃ result, permDifference left right = .ok result ∧
        ∀ perm, result.contains perm = true ↔ property perm) ↔
      (∀ kind, ComparableAt left right kind) ∧ ∀ perm, Kept left right perm ↔ property perm := by
  have hkept : ∀ perm, (HashSet.ofList
      (((amountsOf .acc left.keys).retain fun place =>
          !(amountsOf .acc right.keys).contains place).entries.map
        (fun entry => Perm.acc entry.1 entry.2) ++
      ((amountsOf .pred left.keys).retain fun place =>
          !(amountsOf .pred right.keys).contains place).entries.map
        fun entry => Perm.pred entry.1 entry.2)).contains perm = true ↔
      Kept left right perm := by
    intro perm
    rw [contains_ofList_perms, Kept, ← get?_kept hleft hright]
    cases perm <;> exact Iff.rfl
  unfold permDifference
  simp only [bind_eq_ok_iff, placePermDifference_eq_ok_iff, comparableAt_iff hleft hright]
  constructor
  · rintro ⟨_, ⟨_, ⟨hacc, rfl⟩, _, ⟨hpred, rfl⟩, hresult⟩, hproperty⟩
    cases hresult
    refine ⟨fun kind => ?_, fun perm => ?_⟩
    · cases kind
      · exact hacc
      · exact hpred
    · rw [← hkept, hproperty]
  · rintro ⟨hcomparable, hproperty⟩
    refine ⟨_, ⟨_, ⟨hcomparable .acc, rfl⟩, _, ⟨hcomparable .pred, rfl⟩, rfl⟩, fun perm => ?_⟩
    rw [hkept, hproperty]

/-- The difference does what it documents exactly if whatever it covers is
covered at the place itself, with amounts that the code has a case for. -/
theorem differenceAsDocumented_iff (left right : HashSet Perm)
    (hleft : OneAmount left) (hright : OneAmount right) :
    DifferenceAsDocumented left right ↔ CoveredAtPlace left right := by
  rw [DifferenceAsDocumented, permDifference_spec hleft hright]
  constructor
  · rintro ⟨hcomparable, hkept⟩ perm other hperm hother hkind
    refine ⟨fun hplace => ?_, fun hprefix hcovers => ?_⟩
    · exact hcomparable perm.kind perm other hperm hother rfl hkind hplace
    · by_contra hnone
      push Not at hnone
      have hnotCovered := (hkept perm).mp ⟨hperm, fun same hsame hkind' =>
        Bool.eq_false_iff.mpr (hnone same hsame hkind')⟩
      have := hnotCovered.2 other hother hkind (Expr.hasPrefix_of_hasProperPrefix hprefix)
      rw [hcovers] at this
      cases this
  · intro h
    refine ⟨fun kind perm other hperm hother hkind hkind' hplace => ?_, fun perm => ⟨?_, ?_⟩⟩
    · exact (h perm other hperm hother (hkind'.trans hkind.symm)).1 hplace
    · rintro ⟨hperm, hkept⟩
      refine ⟨hperm, fun other hother hkind hprefix => ?_⟩
      rw [Bool.eq_false_iff]
      intro hcovers
      have hne := hkept other hother hkind
      have hproper := (Expr.hasProperPrefix_iff _ _).mpr ⟨hne, hprefix⟩
      -- a covering permission above comes with one at the place itself
      obtain ⟨same, hsame, hkind', hplace⟩ := (h perm other hperm hother hkind).2 hproper hcovers
      rw [hkept same hsame hkind'] at hplace
      cases hplace
    · rintro ⟨hperm, hnotCovered⟩
      refine ⟨hperm, fun other hother hkind => ?_⟩
      rw [Bool.eq_false_iff]
      intro hplace
      have hcovers := covers_of_comparable ((h perm other hperm hother hkind).1 hplace)
      rw [hnotCovered other hother hkind (Expr.hasPrefix_of_beq hplace)]
        at hcovers
      cases hcovers

end Difference

namespace Witness

open Prusti.Vir.Expr

def pairVar : Expr := .localVar ⟨"_1", .typedRef "Pair"⟩ Position.default

def pairLeft : Expr := .field pairVar ⟨"left", .typedRef "Node"⟩ Position.default

def pairLeftValue : Expr := .field pairLeft ⟨"value", .int⟩ Position.default

/-- The access to a field and to a field of it. -/
def requiredPerms : HashSet Perm := HashSet.ofList [.acc pairLeft .write, .acc pairLeftValue .write]

/-- The access to the first of them. -/
def providedPerms : HashSet Perm := HashSet.ofList [.acc pairLeft .write]

theorem oneAmount_of_forall {perms : HashSet Perm} (amount : PermAmount)
    (h : ∀ perm ∈ perms.keys, perm.getPermAmount = amount) :
    OneAmount perms := by
  intro perm other hperm hother _ _
  obtain ⟨perm', hmem, heq⟩ := (HashMap.contains_iff_keys perms perm).mp hperm
  obtain ⟨other', hmem', heq'⟩ := (HashMap.contains_iff_keys perms other).mp hother
  rw [← ((Perm.beq_iff _ _).mp heq).2.2, ← ((Perm.beq_iff _ _).mp heq').2.2,
    h perm' hmem, h other' hmem']

theorem oneAmount_requiredPerms : OneAmount requiredPerms := oneAmount_of_forall .write (by decide)

theorem oneAmount_providedPerms : OneAmount providedPerms := oneAmount_of_forall .write (by decide)

/-- Removing `left` does not remove `left.value`. -/
theorem requiredPerms_not_asDocumented :
    OneAmount requiredPerms ∧ OneAmount providedPerms ∧
      ¬ DifferenceAsDocumented requiredPerms providedPerms := by
  refine ⟨oneAmount_requiredPerms, oneAmount_providedPerms, ?_⟩
  rw [DifferenceAsDocumented, permDifference_spec oneAmount_requiredPerms oneAmount_providedPerms]
  rintro ⟨-, hkept⟩
  have hstays : Kept requiredPerms providedPerms (.acc pairLeftValue .write) := by
    refine ⟨by decide, fun other hother _ => ?_⟩
    obtain ⟨other', hmem, heq⟩ := (HashMap.contains_iff_keys providedPerms other).mp hother
    rw [List.mem_singleton.mp hmem] at heq
    rw [← Lib.beq_congr_right ((Perm.beq_iff _ _).mp heq).2.1]
    decide
  have hnotCovered := ((hkept _).mp hstays).2 (.acc pairLeft .write) (by decide) rfl (by decide)
  exact absurd hnotCovered (by decide)

theorem differenceAsDocumented_iff_requiredPerms :
    OneAmount requiredPerms ∧ OneAmount providedPerms ∧
      (DifferenceAsDocumented requiredPerms providedPerms ↔
        CoveredAtPlace requiredPerms providedPerms) :=
  ⟨oneAmount_requiredPerms, oneAmount_providedPerms,
    differenceAsDocumented_iff requiredPerms providedPerms
      oneAmount_requiredPerms oneAmount_providedPerms⟩

end Witness

end Prusti.FoldUnfold

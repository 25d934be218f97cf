/-
The targets of a join: the places to obtain by unfolding and the enums to
obtain by folding, computed from the access places of the two branches.
-/
import Prusti.FoldUnfold.PermDifference
import Mathlib.Data.Set.Finite.Lemmas

namespace Prusti.Lib.HashSet

variable {α ι : Type} [BEq α] [PartialEquivBEq α]

omit [PartialEquivBEq α] in
/-- A loop whose step adds the elements accepted by `added` adds what some step
adds. -/
theorem contains_foldl_of_step {step : HashSet α → ι → HashSet α} {added : ι → α → Bool}
    (hstep : ∀ set item elem, (step set item).contains elem =
      (set.contains elem || added item elem)) (items : List ι)
    (set : HashSet α) (elem : α) :
    (items.foldl step set).contains elem =
      (set.contains elem || items.any fun item => added item elem) := by
  induction items generalizing set with
  | nil => simp
  | cons item items ih => rw [List.foldl_cons, ih, hstep, List.any_cons, Bool.or_assoc]

end Prusti.Lib.HashSet

namespace Prusti.FoldUnfold

open Prusti.Vir Prusti.Lib

/-- An enum that is completely folded in `secondSet`, or unfolded with a
different variant there, is a conflicting base. -/
def conflictingBaseCheck (secondSet conflictingBase : HashSet Expr) (item : Expr) : HashSet Expr :=
  match item with
  | .variant base _ _ =>
    if secondSet.keys.any fun place => place.hasPrefix item then
      conflictingBase
    else HashSet.insert conflictingBase base
  | _ => conflictingBase

/-- A leaf of one set that lies below all places of the other one is obtained
by unfolding, unless it lies below a conflicting base. -/
def placeCheck (conflictingBase itemSet otherSet places : HashSet Expr)
    (item : Expr) : HashSet Expr :=
  let isLeaf := !itemSet.keys.any fun place => place.hasProperPrefix item
  let belowAllOthers := !otherSet.keys.any fun place => place.hasPrefix item
  let noConflictBase := !conflictingBase.keys.any fun base =>
    item.hasPrefix base
  if isLeaf && belowAllOthers && noConflictBase then
    HashSet.insert places item
  else places

/-- The enums that are unfolded in only one of the sets. -/
def conflictingBases (left right : HashSet Expr) : HashSet Expr :=
  right.keys.foldl (conflictingBaseCheck left)
    (left.keys.foldl (conflictingBaseCheck right) HashMap.empty)

/-- The sets of places that should be obtained: the first by unfolding, the
second by folding. -/
def computeFoldTarget (left right : HashSet Expr) : HashSet Expr × HashSet Expr :=
  let conflictingBase := conflictingBases left right
  let accPlaces := right.keys.foldl (placeCheck conflictingBase right left)
    (left.keys.foldl (placeCheck conflictingBase left right) HashMap.empty)
  let predPlaces := HashMap.retain conflictingBase fun place =>
    !conflictingBase.keys.any fun base => place.hasProperPrefix base
  (accPlaces, predPlaces)

/-- With every place the set has the places above it. -/
def PrefixClosed (set : HashSet Expr) : Prop :=
  ∀ place ∈ set.keys, ∀ above ∈ place.allPrefixes, set.contains above = true

section Prefixes

theorem mem_allPrefixes_self (place : Expr) : place ∈ place.allPrefixes := by
  cases place <;> simp [Expr.allPrefixes]

theorem mem_allPrefixes_of_getParent {place parent above : Expr}
    (hparent : place.getParent = some parent)
    (h : above ∈ parent.allPrefixes) : above ∈ place.allPrefixes := by
  cases place <;> simp only [Expr.getParent, reduceCtorEq, Option.some.injEq]
    at hparent
  all_goals
    subst hparent
    exact List.mem_append_left _ h

/-- The prefixes of a place are those that are listed. -/
theorem exists_allPrefixes_of_hasPrefix {place above : Expr} (h : place.hasPrefix above = true) :
    ∃ other ∈ place.allPrefixes, (other == above) = true := by
  induction place using Expr.parent_induction with
  | step place ih =>
    rcases (Expr.hasPrefix_iff _ _).mp h with heq | ⟨parent, hparent, h⟩
    · exact ⟨place, mem_allPrefixes_self place, heq⟩
    · obtain ⟨other, hmem, heq⟩ := ih parent hparent h
      exact ⟨other, mem_allPrefixes_of_getParent hparent hmem, heq⟩

variable {set : HashSet Expr} {place above : Expr}

theorem PrefixClosed.contains (hclosed : PrefixClosed set)
    (hmem : place ∈ set.keys) (h : place.hasPrefix above = true) :
    set.contains above = true := by
  obtain ⟨other, hother, heq⟩ := exists_allPrefixes_of_hasPrefix h
  rw [← HashMap.contains_congr set heq]
  exact hclosed place hmem other hother

theorem hasPrefix_self_of_contains (h : set.contains place = true) :
    place.hasPrefix place = true := by
  obtain ⟨other, -, heq⟩ := (HashMap.contains_iff_keys set place).mp h
  exact Expr.hasPrefix_of_beq (BEq.trans (BEq.symm heq) heq)

/-- Some place of the set lies at or below the place. -/
def HasBelow (set : HashSet Expr) (place : Expr) : Prop :=
  ∃ below ∈ set.keys, below.hasPrefix place = true

theorem any_hasPrefix_iff :
    (set.keys.any fun below => below.hasPrefix place) = true ↔ HasBelow set place :=
  List.any_eq_true

/-- Below every place of a set there is a leaf of it. -/
theorem exists_leaf (h : HasBelow set place) :
    ∃ leaf ∈ set.keys, leaf.hasPrefix place = true ∧
      ∀ other ∈ set.keys, other.hasProperPrefix leaf = false := by
  have hfinite : {below | below ∈ set.keys ∧ below.hasPrefix place = true}.Finite :=
    set.keys.finite_toSet.subset fun below hbelow => hbelow.1
  obtain ⟨leaf, ⟨hleaf, hprefix⟩, hmax⟩ := Set.exists_max_image _ Expr.height hfinite h
  refine ⟨leaf, hleaf, hprefix, fun other hother => ?_⟩
  rw [Bool.eq_false_iff]
  intro hproper
  have hle := hmax other ⟨hother, Expr.hasPrefix_trans
    (Expr.hasPrefix_of_hasProperPrefix hproper) hprefix⟩
  have hlt := Expr.height_lt_of_hasProperPrefix hproper
  omega

/-- A property of the members of a set that respects equality. -/
theorem forall_keys_iff {property : Expr → Prop}
    (hcongr : ∀ place place', (place == place') = true → (property place ↔ property place'))
    (hirrefl : ∀ place, (place == place) = false → property place) :
    (∀ place ∈ set.keys, property place) ↔ ∀ place, set.contains place = true → property place := by
  constructor
  · intro h place hplace
    obtain ⟨other, hmem, heq⟩ := (HashMap.contains_iff_keys set place).mp hplace
    exact (hcongr other place heq).mp (h other hmem)
  · intro h place hmem
    cases hself : place == place with
    | true => exact h place ((HashMap.contains_iff_keys set place).mpr ⟨place, hmem, hself⟩)
    | false => exact hirrefl place hself

/-- The places of a set that have no other place of the set above them. -/
def topmost (set : HashSet Expr) : HashSet Expr :=
  HashMap.retain set fun place =>
    !set.keys.any fun base => place.hasProperPrefix base

theorem contains_topmost_iff :
    (topmost set).contains place = true ↔ set.contains place = true ∧
      ∀ base, set.contains base = true → place.hasProperPrefix base = false := by
  rw [HashMap.contains_eq_isSome, topmost, HashMap.get?_retain _ _
    fun left right h => by simp only [Expr.hasProperPrefix_congr_left h]]
  rw [HashMap.contains_eq_isSome, ← forall_keys_iff]
  · split
    · next h =>
        simp only [Bool.not_eq_eq_eq_not, Bool.not_true, List.any_eq_false, Bool.not_eq_true] at h
        exact (and_iff_left h).symm
    · next h =>
        simp only [Bool.not_eq_eq_eq_not, Bool.not_true, List.any_eq_false, Bool.not_eq_true] at h
        simp [h]
  · intro base base' heq
    rw [Expr.hasProperPrefix_congr_right place heq]
  · intro base hself
    rw [Bool.eq_false_iff]
    intro hproper
    rw [Expr.beq_self_of_hasPrefix (Expr.hasPrefix_of_hasProperPrefix hproper)]
      at hself
    cases hself

/-- Above every place of a set there is a topmost one. -/
theorem exists_topmost (h : set.contains place = true) :
    ∃ top, (topmost set).contains top = true ∧ place.hasPrefix top = true := by
  induction hheight : place.height using Nat.strong_induction_on generalizing place with
  | _ height ih =>
    subst hheight
    by_cases htop : ∀ base, set.contains base = true → place.hasProperPrefix base = false
    · exact ⟨place, contains_topmost_iff.mpr ⟨h, htop⟩, hasPrefix_self_of_contains h⟩
    · push Not at htop
      obtain ⟨base, hbase, hproper⟩ := htop
      rw [Bool.ne_false_iff] at hproper
      obtain ⟨top, htop, habove⟩ := ih base.height
        (Expr.height_lt_of_hasProperPrefix hproper) hbase rfl
      exact ⟨top, htop, Expr.hasPrefix_trans (Expr.hasPrefix_of_hasProperPrefix hproper) habove⟩

/-- Topmost places are incomparable. -/
theorem beq_of_topmost {other : Expr} (hplace : (topmost set).contains place = true)
    (hother : (topmost set).contains other = true)
    (h : place.hasPrefix other = true) : (place == other) = true := by
  have hne := (contains_topmost_iff.mp hplace).2 other (contains_topmost_iff.mp hother).1
  rw [← Bool.not_eq_false]
  intro hfalse
  rw [(Expr.hasProperPrefix_iff _ _).mpr ⟨hfalse, h⟩] at hne
  cases hne

end Prefixes

section Target

variable {left right : HashSet Expr}

/-- The enum at the place has a variant in `first` and is not unfolded to it in
`second`. -/
def IsConflict (first second : HashSet Expr) (place : Expr) : Prop :=
  ∃ base index pos, Expr.variant base index pos ∈ first.keys ∧
    ¬ HasBelow second (.variant base index pos) ∧ (base == place) = true

/-- The place is a leaf of `first`, below all of `second` and below no
conflicting base. -/
structure IsUnfolded (first second : HashSet Expr) (item : Expr) : Prop where
  leaf : ∀ other ∈ first.keys, other.hasProperPrefix item = false
  notAbove : ¬ HasBelow second item
  noConflict : ∀ base, IsConflict first second base ∨
    IsConflict second first base → item.hasPrefix base = false

/-- The base that the check adds for an item. -/
def conflictOf (secondSet : HashSet Expr) (item place : Expr) : Bool :=
  match item with
  | .variant base _ _ =>
    !(secondSet.keys.any fun other => other.hasPrefix item) && base == place
  | _ => false

theorem contains_conflictingBaseCheck (secondSet conflictingBase : HashSet Expr)
    (item place : Expr) :
    (conflictingBaseCheck secondSet conflictingBase item).contains place =
      (conflictingBase.contains place || conflictOf secondSet item place) := by
  cases item with
  | variant base index pos =>
    simp only [conflictingBaseCheck, conflictOf]
    cases secondSet.keys.any fun other =>
      other.hasPrefix (.variant base index pos) with
    | true => simp
    | false => simp [HashSet.contains_insert, Bool.or_comm]
  | _ => exact (Bool.or_false _).symm

theorem any_conflictOf_iff (place : Expr) :
    (left.keys.any fun item => conflictOf right item place) = true ↔
      IsConflict left right place := by
  rw [List.any_eq_true]
  constructor
  · rintro ⟨item, hmem, h⟩
    cases item with
    | variant base index pos =>
      unfold conflictOf at h
      rw [Bool.and_eq_true, Bool.not_eq_true', ← Bool.not_eq_true, any_hasPrefix_iff] at h
      exact ⟨base, index, pos, hmem, h.1, h.2⟩
    | _ => cases h
  · rintro ⟨base, index, pos, hmem, hbelow, heq⟩
    refine ⟨_, hmem, ?_⟩
    unfold conflictOf
    rw [Bool.and_eq_true, Bool.not_eq_true', ← Bool.not_eq_true, any_hasPrefix_iff]
    exact ⟨hbelow, heq⟩

theorem contains_conflictingBases (place : Expr) :
    (conflictingBases left right).contains place = true ↔
      IsConflict left right place ∨ IsConflict right left place := by
  unfold conflictingBases
  rw [HashSet.contains_foldl_of_step (contains_conflictingBaseCheck left),
    HashSet.contains_foldl_of_step (contains_conflictingBaseCheck right),
    Bool.or_eq_true, Bool.or_eq_true, any_conflictOf_iff, any_conflictOf_iff]
  simp [HashMap.contains, HashMap.empty]

/-- The conflicting bases do not depend on the order of the arguments. -/
theorem contains_conflictingBases_comm (place : Expr) :
    (conflictingBases left right).contains place =
      (conflictingBases right left).contains place := by
  rw [Bool.eq_iff_iff, contains_conflictingBases, contains_conflictingBases, or_comm]

/-- Two sets with the same members. -/
theorem any_hasPrefix_eq_false_iff {bases : HashSet Expr}
    {property : Expr → Prop} (hbases : ∀ base, bases.contains base = true ↔ property base)
    (item : Expr) :
    (bases.keys.any fun base => item.hasPrefix base) = false ↔
      ∀ base, property base → item.hasPrefix base = false := by
  simp only [← hbases]
  rw [← forall_keys_iff]
  · simp
  · intro place place' heq
    rw [Expr.hasPrefix_congr_right item heq]
  · intro place hself
    rw [Bool.eq_false_iff]
    intro hprefix
    rw [Expr.beq_self_of_hasPrefix hprefix] at hself
    cases hself

theorem contains_placeCheck {conflictingBase itemSet otherSet : HashSet Expr}
    (places : HashSet Expr) (item place : Expr) :
    (placeCheck conflictingBase itemSet otherSet places item).contains place =
      (places.contains place ||
        ((!itemSet.keys.any fun other => other.hasProperPrefix item) &&
          (!otherSet.keys.any fun other => other.hasPrefix item) &&
          (!conflictingBase.keys.any fun base => item.hasPrefix base) &&
          item == place)) := by
  unfold placeCheck
  simp only
  split
  · next h => rw [h, HashSet.contains_insert, Bool.true_and, Bool.or_comm]
  · next h => rw [Bool.eq_false_iff.mpr h, Bool.false_and, Bool.or_false]

theorem any_placeCheck_iff {bases : HashSet Expr} (hbases : ∀ base, bases.contains base = true ↔
      IsConflict left right base ∨ IsConflict right left base)
    (place : Expr) :
    (left.keys.any fun item =>
      (!left.keys.any fun other => other.hasProperPrefix item) &&
        (!right.keys.any fun other => other.hasPrefix item) &&
        (!bases.keys.any fun base => item.hasPrefix base) &&
        item == place) = true ↔
      ∃ item ∈ left.keys, IsUnfolded left right item ∧ (item == place) = true := by
  rw [List.any_eq_true]
  refine exists_congr fun item => and_congr_right fun _ => ?_
  rw [Bool.and_eq_true, Bool.and_eq_true, Bool.and_eq_true, Bool.not_eq_true',
    Bool.not_eq_true', Bool.not_eq_true', any_hasPrefix_eq_false_iff hbases,
    List.any_eq_false, ← Bool.not_eq_true (right.keys.any _), any_hasPrefix_iff]
  simp only [Bool.not_eq_true]
  constructor
  · rintro ⟨⟨⟨hleaf, hbelow⟩, hconflict⟩, heq⟩
    exact ⟨⟨hleaf, hbelow, hconflict⟩, heq⟩
  · rintro ⟨h, heq⟩
    exact ⟨⟨⟨h.leaf, h.notAbove⟩, h.noConflict⟩, heq⟩

/-- The places to unfold are the leaves of either set that pass the checks. -/
theorem contains_accPlaces (place : Expr) :
    (computeFoldTarget left right).1.contains place = true ↔
      (∃ item ∈ left.keys, IsUnfolded left right item ∧ (item == place) = true) ∨
      ∃ item ∈ right.keys, IsUnfolded right left item ∧ (item == place) = true := by
  have hbases := @contains_conflictingBases left right
  have hbases' := fun base => (hbases base).trans or_comm
  unfold computeFoldTarget
  simp only
  rw [HashSet.contains_foldl_of_step contains_placeCheck,
    HashSet.contains_foldl_of_step contains_placeCheck, Bool.or_eq_true,
    Bool.or_eq_true, any_placeCheck_iff hbases, any_placeCheck_iff hbases']
  simp [HashMap.contains, HashMap.empty]

/-- The places to fold are the topmost conflicting bases. -/
theorem predPlaces_eq : (computeFoldTarget left right).2 = topmost (conflictingBases left right) :=
  rfl

theorem contains_accPlaces_comm (place : Expr) :
    (computeFoldTarget left right).1.contains place =
      (computeFoldTarget right left).1.contains place := by
  rw [Bool.eq_iff_iff, contains_accPlaces, contains_accPlaces, or_comm]

theorem contains_predPlaces_comm (place : Expr) :
    (computeFoldTarget left right).2.contains place =
      (computeFoldTarget right left).2.contains place := by
  rw [predPlaces_eq, predPlaces_eq, Bool.eq_iff_iff, contains_topmost_iff, contains_topmost_iff]
  simp only [@contains_conflictingBases_comm left right]

/-- No place to unfold lies at or below a place to fold. -/
theorem accPlaces_not_below {acc pred : Expr}
    (hacc : (computeFoldTarget left right).1.contains acc = true)
    (hpred : (computeFoldTarget left right).2.contains pred = true) :
    acc.hasPrefix pred = false := by
  rw [predPlaces_eq, contains_topmost_iff, contains_conflictingBases] at hpred
  rcases (contains_accPlaces acc).mp hacc with
    ⟨item, -, hitem, heq⟩ | ⟨item, -, hitem, heq⟩
  · rw [← Expr.hasPrefix_congr_left heq]
    exact hitem.noConflict pred hpred.1
  · rw [← Expr.hasPrefix_congr_left heq]
    exact hitem.noConflict pred hpred.1.symm

/-- What `first` unfolds has no place of either set below it. -/
theorem IsUnfolded.not_hasProperPrefix {first second : HashSet Expr}
    {item : Expr} (hitem : IsUnfolded first second item) :
    ∀ other, other ∈ first.keys ∨ other ∈ second.keys → other.hasProperPrefix item = false := by
  rintro other (hother | hother)
  · exact hitem.leaf other hother
  · rw [Bool.eq_false_iff]
    intro hproper
    exact hitem.notAbove ⟨other, hother, Expr.hasPrefix_of_hasProperPrefix hproper⟩

/-- No place to unfold is a proper prefix of another one. -/
theorem accPlaces_not_nested {acc other : Expr}
    (hacc : (computeFoldTarget left right).1.contains acc = true)
    (hother : (computeFoldTarget left right).1.contains other = true) :
    acc.hasProperPrefix other = false := by
  obtain ⟨item, hmem, heq⟩ : ∃ item, (item ∈ left.keys ∨ item ∈ right.keys) ∧
      (item == acc) = true := by
    rcases (contains_accPlaces acc).mp hacc with
      ⟨item, hmem, -, heq⟩ | ⟨item, hmem, -, heq⟩
    · exact ⟨item, .inl hmem, heq⟩
    · exact ⟨item, .inr hmem, heq⟩
  rw [← Expr.hasProperPrefix_congr_left heq]
  rcases (contains_accPlaces other).mp hother with
    ⟨item', -, hitem', heq'⟩ | ⟨item', -, hitem', heq'⟩
  · rw [← Expr.hasProperPrefix_congr_right item heq']
    exact hitem'.not_hasProperPrefix item hmem
  · rw [← Expr.hasProperPrefix_congr_right item heq']
    exact hitem'.not_hasProperPrefix item hmem.symm

/-- The place lies above, at or below a place to obtain. -/
def IsCovered (target : HashSet Expr × HashSet Expr) (place : Expr) : Prop :=
  ∃ goal, (target.1.contains goal = true ∨ target.2.contains goal = true) ∧
    (goal.hasPrefix place = true ∨ place.hasPrefix goal = true)

/-- A place that meets a conflicting base meets the topmost one above it. -/
theorem isCovered_of_conflict {place base : Expr}
    (hbase : (conflictingBases left right).contains base = true)
    (h : base.hasPrefix place = true ∨ place.hasPrefix base = true) :
    IsCovered (computeFoldTarget left right) place := by
  obtain ⟨top, htop, habove⟩ := exists_topmost hbase
  refine ⟨top, .inr htop, ?_⟩
  rcases h with hbelow | hbelow
  · exact Expr.hasPrefix_total habove hbelow
  · exact .inr (Expr.hasPrefix_trans hbelow habove)

/-- A place of one set that the other one lacks is covered: by a conflicting
base, or by a leaf below it. -/
theorem isCovered_of_left (hclosed : PrefixClosed left)
    (hclosed' : PrefixClosed right) {place : Expr} (hplace : left.contains place = true)
    (hother : right.contains place = false) :
    IsCovered (computeFoldTarget left right) place := by
  by_cases hconflict : ∃ base,
      (conflictingBases left right).contains base = true ∧
        (base.hasPrefix place = true ∨ place.hasPrefix base = true)
  · obtain ⟨base, hbase, h⟩ := hconflict
    exact isCovered_of_conflict hbase h
  · obtain ⟨item, hmem, heq⟩ := (HashMap.contains_iff_keys left place).mp hplace
    obtain ⟨leaf, hleaf, hprefix, hlast⟩ := exists_leaf ⟨item, hmem, Expr.hasPrefix_of_beq heq⟩
    have hunfolded : IsUnfolded left right leaf := by
      refine ⟨hlast, ?_, fun base hbase => ?_⟩
      · -- a place of the other set below the leaf would bring the place along
        rintro ⟨below, hbelow, hbelowLeaf⟩
        have := hclosed'.contains hbelow (Expr.hasPrefix_trans hbelowLeaf hprefix)
        rw [hother] at this
        cases this
      · rw [Bool.eq_false_iff]
        intro habove
        exact hconflict ⟨base, (contains_conflictingBases base).mpr hbase,
          Expr.hasPrefix_total habove hprefix⟩
    obtain ⟨above, -, heq'⟩ := (HashMap.contains_iff_keys left leaf).mp
      (hclosed leaf hleaf leaf (mem_allPrefixes_self leaf))
    refine ⟨leaf, .inl ((contains_accPlaces leaf).mpr (.inl
      ⟨leaf, hleaf, hunfolded, BEq.trans (BEq.symm heq') heq'⟩)), .inl hprefix⟩

theorem IsCovered.comm {place : Expr} (h : IsCovered (computeFoldTarget right left) place) :
    IsCovered (computeFoldTarget left right) place := by
  obtain ⟨goal, hgoal, hplace⟩ := h
  rw [contains_accPlaces_comm, contains_predPlaces_comm] at hgoal
  exact ⟨goal, hgoal, hplace⟩

/-- The targets of a join are well formed. -/
structure WellFormedTarget (left right : HashSet Expr)
    (target : HashSet Expr × HashSet Expr) : Prop where
  /-- The places to fold are pairwise incomparable. -/
  predIncomparable : ∀ place other, target.2.contains place = true →
    target.2.contains other = true → place.hasPrefix other = true →
    (place == other) = true
  accNotBelowPred : ∀ acc pred, target.1.contains acc = true →
    target.2.contains pred = true → acc.hasPrefix pred = false
  accNotNested : ∀ acc other, target.1.contains acc = true →
    target.1.contains other = true → acc.hasProperPrefix other = false
  /-- Every place in which the two sets differ meets a place to obtain. -/
  covered : ∀ place, left.contains place ≠ right.contains place → IsCovered target place

/-- For sets of places that are closed under prefixes the targets are well
formed and do not depend on the order of the arguments. -/
theorem computeFoldTarget_wellFormed (left right : HashSet Expr)
    (hleft : PrefixClosed left) (hright : PrefixClosed right) :
    WellFormedTarget left right (computeFoldTarget left right) ∧
      ∀ place,
        (computeFoldTarget left right).1.contains place =
          (computeFoldTarget right left).1.contains place ∧
        (computeFoldTarget left right).2.contains place =
          (computeFoldTarget right left).2.contains place := by
  refine ⟨⟨?_, ?_, ?_, ?_⟩, fun place =>
    ⟨contains_accPlaces_comm place, contains_predPlaces_comm place⟩⟩
  · intro place other hplace hother h
    exact beq_of_topmost hplace hother h
  · intro acc pred hacc hpred
    exact accPlaces_not_below hacc hpred
  · intro acc other hacc hother
    exact accPlaces_not_nested hacc hother
  · intro place hdiffer
    cases hplace : left.contains place with
    | true =>
      rw [hplace] at hdiffer
      exact isCovered_of_left hleft hright hplace (Bool.eq_false_iff.mpr (Ne.symm hdiffer))
    | false =>
      rw [hplace, ne_comm, Bool.ne_false_iff] at hdiffer
      exact (isCovered_of_left hright hleft hdiffer hplace).comm

end Target

namespace Witness

def listVar : Expr := .localVar ⟨"_1", .typedRef "List"⟩ Position.default

/-- The variant of the list that has a tail. -/
def consVariant : Expr :=
  .variant listVar ⟨"enum_Cons", .typedRef "List$_beg_$_end_Cons"⟩ Position.default

def consTail : Expr := .field consVariant ⟨"tail", .typedRef "List"⟩ Position.default

def foldedList : HashSet Expr := HashSet.ofList [listVar]

def unfoldedList : HashSet Expr := HashSet.ofList [listVar, consVariant, consTail]

theorem computeFoldTarget_wellFormed_list :
    WellFormedTarget foldedList unfoldedList
        (computeFoldTarget foldedList unfoldedList) ∧
      ∀ place,
        (computeFoldTarget foldedList unfoldedList).1.contains place =
          (computeFoldTarget unfoldedList foldedList).1.contains place ∧
        (computeFoldTarget foldedList unfoldedList).2.contains place =
          (computeFoldTarget unfoldedList foldedList).2.contains place :=
  computeFoldTarget_wellFormed foldedList unfoldedList
    (by unfold PrefixClosed; decide) (by unfold PrefixClosed; decide)

end Witness

end Prusti.FoldUnfold

/-
The unfoldings that the folding optimizer puts back around an expression, sorted
by a comparator of their places.
-/
import Prusti.Lib.MixedOrder
import Prusti.Optimizations.ExtractedUnfoldings
import Mathlib.Data.Prod.Lex
import Mathlib.Data.String.Basic

namespace Prusti.Vir.Expr

/-- A place without unfoldings, as it is printed. -/
def display : Expr → String
  | localVar var _ => var.name
  | variant base index _ => display base ++ "[" ++ index.name ++ "]"
  | field base fld _ => display base ++ "." ++ fld.name
  | addrOf base _ _ => "&(" ++ display base ++ ")"
  | labelledOld label base _ => "old[" ++ label ++ "](" ++ display base ++ ")"
  | _ => ""

def baseName (expr : Expr) : String := (expr.getBase.map (·.name)).getD ""

/-- The arguments of the unfoldings around an expression, the outermost
first. -/
def outerLayers : Expr → List (List Expr)
  | unfolding _ args base _ _ _ => args :: outerLayers base
  | _ => []

end Prusti.Vir.Expr

namespace Prusti.Optimizations.Folding

open Prusti.Lib Prusti.Vir Prusti.Optimizations.QuantifierFixer

/-- A place without unfoldings. -/
def isPath : Expr → Bool
  | .localVar _ _ => true
  | .variant base _ _ | .field base _ _ | .addrOf base _ _ | .labelledOld _ base _ => isPath base
  | _ => false

/-- The comparator of the restored unfoldings. -/
def compareKeys (k1 k2 : Expr) : Ordering :=
  if k1 == k2 then .eq
  else if k1.baseName < k2.baseName then .lt
  else if k2.baseName < k1.baseName then .gt
  else if k2.hasPrefix k1 then .gt
  else if k1.hasPrefix k2 then .lt
  else compare k1.display k2.display

/-- Predicate argument → (predicate name, amount, enum index). -/
abbrev UnfoldingMap := HashMap Expr (String × PermAmount × Option EnumVariantIndex)

/-- Restore unfoldings on a given expression. -/
def restoreUnfoldings (order : IterOrder) (unfoldingMap : UnfoldingMap) (expr : Expr) : Expr :=
  let unfoldings := (order.iter 0 unfoldingMap.entries).mergeSort
    fun first second => compareKeys first.1 second.1 != .gt
  unfoldings.foldl (fun expr (arg, name, permAmount, variant) =>
    .unfolding name [arg] expr permAmount variant expr.pos) expr

/-- The comparator is a strict total order on the keys. -/
structure OrdersKeys (keys : List Expr) : Prop where
  eq_iff : ∀ k1 ∈ keys, ∀ k2 ∈ keys, compareKeys k1 k2 = .eq ↔ (k1 == k2) = true
  gt_iff : ∀ k1 ∈ keys, ∀ k2 ∈ keys, compareKeys k1 k2 = .gt ↔ compareKeys k2 k1 = .lt
  trans : ∀ k1 ∈ keys, ∀ k2 ∈ keys, ∀ k3 ∈ keys, compareKeys k1 k2 = .lt →
    compareKeys k2 k3 = .lt → compareKeys k1 k3 = .lt

/-- No unfolding of a place stands around the unfolding of a place above it. -/
def OutermostFirst (layers : List (List Expr)) : Prop :=
  layers.Pairwise fun outer inner => ∀ below above, outer = [below] →
    inner = [above] → below.hasProperPrefix above = false

/-- Neither place is a prefix of the other one. -/
def Separate (k1 k2 : Expr) : Prop := k1.hasPrefix k2 = false ∧ k2.hasPrefix k1 = false

/-- Separate keys with one base name print differently, and none of them prints
between a place and one below it. -/
structure PrintsApart (keys : List Expr) : Prop where
  distinct : ∀ k1 ∈ keys, ∀ k2 ∈ keys, Separate k1 k2 →
    k1.baseName = k2.baseName → k1.display ≠ k2.display
  noneBetween : ∀ top ∈ keys, ∀ bottom ∈ keys, ∀ other ∈ keys,
    bottom.hasProperPrefix top = true → Separate other top →
    other.baseName = top.baseName →
    ¬ (top.display < other.display ∧ other.display < bottom.display)

section Comparator

theorem beq_self_of_isPath (place : Expr) (h : isPath place = true) : (place == place) = true := by
  induction place using Expr.children_induction with
  | h place ih _ =>
    cases place with
    | localVar var pos => exact (BEq.rfl : (var == var) = true)
    | variant base index pos | field base index pos =>
      have hbase := ih base (List.mem_singleton_self _) h
      exact Bool.and_eq_true_iff.mpr ⟨hbase, BEq.rfl⟩
    | addrOf base typ pos =>
      have hbase := ih base (List.mem_singleton_self _) h
      exact Bool.and_eq_true_iff.mpr ⟨hbase, BEq.rfl⟩
    | labelledOld label base pos =>
      have hbase := ih base (List.mem_singleton_self _) h
      exact Bool.and_eq_true_iff.mpr ⟨BEq.rfl, hbase⟩
    | _ => cases h

theorem baseName_congr {k1 k2 : Expr} (h : (k1 == k2) = true) : k1.baseName = k2.baseName := by
  induction k1 using Expr.children_induction generalizing k2 with
  | h k1 ih _ =>
    cases k1 <;> cases k2 <;> try exact absurd h Bool.false_ne_true
    all_goals try rfl
    case localVar.localVar => exact ((LocalVar.beq_iff _ _).mp h).1
    case variant.variant | field.field | addrOf.addrOf =>
      have hbase := ih _ (List.mem_singleton_self _) (Bool.and_eq_true_iff.mp h).1
      exact hbase
    case labelledOld.labelledOld =>
      have hbase := ih _ (List.mem_singleton_self _) (Bool.and_eq_true_iff.mp h).2
      exact hbase
    case unfolding.unfolding =>
      have hparts := (Bool.and_eq_true_iff.mp (Bool.and_eq_true_iff.mp h).1).1
      have hbase := ih _ (List.mem_append_right _ (List.mem_singleton_self _))
        (Bool.and_eq_true_iff.mp hparts).2
      exact hbase

theorem baseName_of_hasPrefix {expr other : Expr}
    (h : expr.hasPrefix other = true) : expr.baseName = other.baseName := by
  induction expr using Expr.parent_induction with
  | step expr ih =>
    rcases (Expr.hasPrefix_iff _ _).mp h with heq | ⟨parent, hparent, h⟩
    · exact baseName_congr heq
    · rw [← ih parent hparent h]
      cases expr <;> cases hparent <;> rfl

variable {keys : List Expr}

/-- A key of the map. -/
abbrev Key (keys : List Expr) := {key : Expr // key ∈ keys}

/-- The keys of a map are places, no two of them equal. -/
structure AreKeys (keys : List Expr) : Prop where
  path : ∀ key ∈ keys, isPath key = true
  nodup : keys.Pairwise fun k1 k2 => (k1 == k2) = false

/-- One key lies strictly below another one. -/
def Below (k1 k2 : Key keys) : Prop := k1.1.hasProperPrefix k2.1 = true

/-- Keys are ordered by the name of their base and then as they are printed. -/
def printedKey (key : Key keys) : String ×ₗ String := toLex (key.1.baseName, key.1.display)

theorem AreKeys.eq_of_beq (h : AreKeys keys) {k1 k2 : Expr} (h1 : k1 ∈ keys)
    (h2 : k2 ∈ keys) (heq : (k1 == k2) = true) : k1 = k2 := by
  obtain ⟨i, hi, rfl⟩ := List.getElem_of_mem h1
  obtain ⟨j, hj, rfl⟩ := List.getElem_of_mem h2
  have hpairs := List.pairwise_iff_getElem.mp h.nodup
  rcases lt_trichotomy i j with hlt | rfl | hgt
  · rw [hpairs i j hi hj hlt] at heq
    cases heq
  · rfl
  · rw [BEq.comm, hpairs j i hj hi hgt] at heq
    cases heq

theorem AreKeys.beq_iff (h : AreKeys keys) (k1 k2 : Key keys) :
    (k1.1 == k2.1) = true ↔ k1 = k2 := by
  constructor
  · intro heq
    exact Subtype.ext (h.eq_of_beq k1.2 k2.2 heq)
  · rintro rfl
    exact beq_self_of_isPath _ (h.path _ k1.2)

/-- The keys form a forest. -/
theorem AreKeys.isForest (h : AreKeys keys) : IsForest (@Below keys) where
  irrefl key hbelow := by
    have hself := (h.beq_iff key key).mpr rfl
    have hne := ((Expr.hasProperPrefix_iff _ _).mp hbelow).1
    rw [hself] at hne
    cases hne
  trans hab hbc := Expr.hasProperPrefix_of_hasProperPrefix_of_hasPrefix hab
    (Expr.hasPrefix_of_hasProperPrefix hbc)
  path {a b c} hca hcb := by
    by_cases heq : a = b
    · exact .inl heq
    · have hne : (a.1 == b.1) = false :=
        Bool.eq_false_iff.mpr fun hbeq => heq ((h.beq_iff a b).mp hbeq)
      rcases Expr.hasPrefix_total (Expr.hasPrefix_of_hasProperPrefix hca)
        (Expr.hasPrefix_of_hasProperPrefix hcb) with hprefix | hprefix
      · exact .inr (.inl ((Expr.hasProperPrefix_iff _ _).mpr ⟨hne, hprefix⟩))
      · exact .inr (.inr ((Expr.hasProperPrefix_iff _ _).mpr ⟨BEq.comm.trans hne, hprefix⟩))

theorem AreKeys.unrelated_iff (h : AreKeys keys) (k1 k2 : Key keys) :
    Unrelated Below k1 k2 ↔ Separate k1.1 k2.1 := by
  constructor
  · intro hunrelated
    have hne : (k1.1 == k2.1) = false := Bool.eq_false_iff.mpr
      fun hbeq => hunrelated.ne ((h.beq_iff k1 k2).mp hbeq)
    refine ⟨Bool.eq_false_iff.mpr fun hprefix => ?_, Bool.eq_false_iff.mpr fun hprefix => ?_⟩
    · exact hunrelated.notBelow ((Expr.hasProperPrefix_iff _ _).mpr ⟨hne, hprefix⟩)
    · exact hunrelated.notAbove ((Expr.hasProperPrefix_iff _ _).mpr ⟨BEq.comm.trans hne, hprefix⟩)
  · rintro ⟨hnot, hnot'⟩
    refine ⟨?_, fun hbelow => ?_, fun hbelow => ?_⟩
    · rintro rfl
      rw [Expr.hasPrefix_of_beq ((h.beq_iff k1 k1).mpr rfl)] at hnot
      cases hnot
    · rw [Expr.hasPrefix_of_hasProperPrefix hbelow] at hnot
      cases hnot
    · rw [Expr.hasPrefix_of_hasProperPrefix hbelow] at hnot'
      cases hnot'

theorem printedKey_lt_iff (k1 k2 : Key keys) :
    printedKey k1 < printedKey k2 ↔ k1.1.baseName < k2.1.baseName ∨
      k1.1.baseName = k2.1.baseName ∧ k1.1.display < k2.1.display :=
  Prod.Lex.toLex_lt_toLex

theorem baseName_of_below {k1 k2 : Key keys} (h : Below k1 k2) : k1.1.baseName = k2.1.baseName :=
  baseName_of_hasPrefix (Expr.hasPrefix_of_hasProperPrefix h)

/-- On keys the comparator mixes prefixes with what is printed. -/
theorem AreKeys.compareKeys_lt_iff (h : AreKeys keys) (k1 k2 : Key keys) :
    compareKeys k1.1 k2.1 = .lt ↔ MixedLt Below printedKey k1 k2 := by
  have hforest := h.isForest
  have hbeq := h.beq_iff k1 k2
  unfold compareKeys MixedLt
  rw [printedKey_lt_iff]
  split
  · next heq =>
      obtain rfl := hbeq.mp heq
      refine ⟨nofun, ?_⟩
      rintro (hbelow | ⟨hunrelated, -⟩)
      · exact absurd hbelow (hforest.irrefl k1)
      · exact absurd rfl hunrelated.ne
  · next hne =>
      rw [Bool.not_eq_true] at hne
      have hbelow : Below k1 k2 ↔ k1.1.hasPrefix k2.1 = true :=
        (Expr.hasProperPrefix_iff _ _).trans (and_iff_right hne)
      have habove : Below k2 k1 ↔ k2.1.hasPrefix k1.1 = true :=
        (Expr.hasProperPrefix_iff _ _).trans (and_iff_right (BEq.comm.trans hne))
      split
      · next hlt =>
          refine iff_of_true rfl (.inr ⟨⟨?_, ?_, ?_⟩, .inl hlt⟩)
          · rintro rfl
            exact lt_irrefl _ hlt
          · exact fun hb => hlt.ne (baseName_of_below hb)
          · exact fun hb => hlt.ne' (baseName_of_below hb)
      · next hlt =>
          split
          · next hgt =>
              refine iff_of_false nofun ?_
              rintro (hb | ⟨-, hlt' | ⟨heq, -⟩⟩)
              · exact hgt.ne' (baseName_of_below hb)
              · exact hlt hlt'
              · exact hgt.ne' heq
          · next hgt =>
              have heq : k1.1.baseName = k2.1.baseName :=
                le_antisymm (not_lt.mp hgt) (not_lt.mp hlt)
              split
              · next hprefix =>
                  refine iff_of_false nofun ?_
                  have hb := habove.mpr hprefix
                  rintro (hb' | ⟨hunrelated, -⟩)
                  · exact hforest.irrefl k1 (hforest.trans hb' hb)
                  · exact hunrelated.notAbove hb
              · next hnot =>
                  split
                  · next hprefix =>
                      exact iff_of_true rfl (.inl (hbelow.mpr hprefix))
                  · next hnot' =>
                      have hunrelated : Unrelated Below k1 k2 :=
                        ⟨fun heq => Bool.false_ne_true
                          (hne.symm.trans (hbeq.mpr heq)), fun hb => hnot' (hbelow.mp hb),
                          fun hb => hnot (habove.mp hb)⟩
                      rw [compare_lt_iff_lt]
                      simp [heq, hunrelated, hunrelated.notBelow]

/-- The comparator is oriented. -/
theorem compareKeys_swap (k1 k2 : Expr) : (compareKeys k1 k2).swap = compareKeys k2 k1 := by
  unfold compareKeys
  rw [@BEq.comm _ _ _ k2 k1]
  cases heq : k1 == k2 with
  | true => rfl
  | false =>
    have hanti : ¬ (k1.hasPrefix k2 = true ∧ k2.hasPrefix k1 = true) := by
      rintro ⟨h1, h2⟩
      rw [Expr.hasPrefix_antisymm h1 h2] at heq
      cases heq
    simp only [Bool.false_eq_true, ↓reduceIte]
    rcases lt_trichotomy k1.baseName k2.baseName with hlt | hbase | hgt
    · rw [if_pos hlt, if_neg (lt_asymm hlt), if_pos hlt]
      rfl
    · simp only [hbase, lt_irrefl, ↓reduceIte]
      cases h1 : k1.hasPrefix k2 <;> cases h2 : k2.hasPrefix k1
      · exact (@Std.OrientedCmp.eq_swap String compare _ _ _).symm
      · rfl
      · rfl
      · exact absurd ⟨h1, h2⟩ hanti
    · rw [if_neg (lt_asymm hgt), if_pos hgt, if_pos hgt]
      rfl

theorem compareKeys_gt_iff (k1 k2 : Expr) : compareKeys k1 k2 = .gt ↔ compareKeys k2 k1 = .lt := by
  rw [← compareKeys_swap k1 k2]
  cases compareKeys k1 k2 <;> decide

/-- A place comes before its prefixes. -/
theorem compareKeys_of_hasProperPrefix {k1 k2 : Expr}
    (h : k1.hasProperPrefix k2 = true) : compareKeys k1 k2 = .lt := by
  obtain ⟨hne, hprefix⟩ := (Expr.hasProperPrefix_iff _ _).mp h
  have hnot : k2.hasPrefix k1 = false := by
    rw [Bool.eq_false_iff]
    intro hprefix'
    rw [Expr.hasPrefix_antisymm hprefix hprefix'] at hne
    cases hne
  unfold compareKeys
  simp [hne, hprefix, hnot, baseName_of_hasPrefix hprefix]

/-- The keys print apart exactly if the mixture of prefixes and printing is
total and has nothing between. -/
theorem AreKeys.printsApart_iff (h : AreKeys keys) :
    PrintsApart keys ↔ KeysDistinct (@Below keys) printedKey ∧
      NoneBetween (@Below keys) printedKey := by
  have hkey : ∀ k1 k2 : Key keys, printedKey k1 = printedKey k2 ↔
      k1.1.baseName = k2.1.baseName ∧ k1.1.display = k2.1.display :=
    fun _ _ => toLex_inj.trans Prod.ext_iff
  constructor
  · rintro ⟨hdistinct, hnone⟩
    refine ⟨fun k1 k2 hunrelated heq => ?_, fun top bottom other hbelow hother ⟨hlt, hlt'⟩ => ?_⟩
    · obtain ⟨hbase, hdisplay⟩ := (hkey k1 k2).mp heq
      exact hdistinct _ k1.2 _ k2.2 ((h.unrelated_iff k1 k2).mp hunrelated) hbase hdisplay
    · have hbase := baseName_of_below hbelow
      rw [printedKey_lt_iff] at hlt hlt'
      rw [hbase] at hlt'
      rcases hlt with hlt | ⟨heq, hlt⟩
      · rcases hlt' with hlt' | ⟨heq', -⟩
        · exact lt_asymm hlt hlt'
        · exact hlt.ne' heq'
      · rcases hlt' with hlt' | ⟨-, hlt'⟩
        · exact hlt'.ne' heq
        · exact hnone _ top.2 _ bottom.2 _ other.2 hbelow
            ((h.unrelated_iff other top).mp hother) heq.symm ⟨hlt, hlt'⟩
  · rintro ⟨hdistinct, hnone⟩
    refine ⟨fun k1 h1 k2 h2 hseparate hbase hdisplay => ?_,
      fun top htop bottom hbottom other hother hbelow hseparate hbase
      ⟨hlt, hlt'⟩ => ?_⟩
    · exact hdistinct ⟨k1, h1⟩ ⟨k2, h2⟩ ((h.unrelated_iff _ _).mpr hseparate)
        ((hkey _ _).mpr ⟨hbase, hdisplay⟩)
    · have hbase' : bottom.baseName = top.baseName :=
        @baseName_of_below keys ⟨bottom, hbottom⟩ ⟨top, htop⟩ hbelow
      refine hnone ⟨top, htop⟩ ⟨bottom, hbottom⟩ ⟨other, hother⟩ hbelow
        ((h.unrelated_iff _ _).mpr hseparate) ⟨?_, ?_⟩
      · exact (printedKey_lt_iff _ _).mpr (.inr ⟨hbase.symm, hlt⟩)
      · exact (printedKey_lt_iff _ _).mpr (.inr ⟨hbase.trans hbase'.symm, hlt'⟩)

/-- The comparator is a strict total order on the keys exactly if they print
apart. -/
theorem AreKeys.ordersKeys_iff (h : AreKeys keys) : OrdersKeys keys ↔ PrintsApart keys := by
  have hforest := h.isForest
  rw [h.printsApart_iff]
  constructor
  · intro horders
    have hdistinct : KeysDistinct (@Below keys) printedKey := by
      intro k1 k2 hunrelated heq
      have hnot : ∀ k1' k2' : Key keys, Unrelated Below k1' k2' →
          printedKey k1' = printedKey k2' → compareKeys k1'.1 k2'.1 ≠ .lt := by
        intro k1' k2' hunrelated' heq' hlt
        rcases (h.compareKeys_lt_iff k1' k2').mp hlt with hbelow | ⟨-, hlt'⟩
        · exact hunrelated'.notBelow hbelow
        · exact hlt'.ne heq'
      cases hcompare : compareKeys k1.1 k2.1 with
      | lt => exact hnot k1 k2 hunrelated heq hcompare
      | gt => exact hnot k2 k1 hunrelated.symm heq.symm ((compareKeys_gt_iff _ _).mp hcompare)
      | eq =>
        exact hunrelated.ne ((h.beq_iff k1 k2).mp ((horders.eq_iff _ k1.2 _ k2.2).mp hcompare))
    refine ⟨hdistinct, (hforest.mixedLt_trans_iff hdistinct).mp ?_⟩
    intro a b c hab hbc
    rw [← h.compareKeys_lt_iff] at hab hbc ⊢
    exact horders.trans _ a.2 _ b.2 _ c.2 hab hbc
  · rintro ⟨hdistinct, hnone⟩
    have htrans := (hforest.mixedLt_trans_iff hdistinct).mpr hnone
    refine ⟨fun k1 h1 k2 h2 => ?_, fun k1 _ k2 _ => compareKeys_gt_iff k1 k2,
      fun k1 h1 k2 h2 k3 h3 hlt hlt' => ?_⟩
    · constructor
      · intro hcompare
        by_contra hne
        have hne' : (⟨k1, h1⟩ : Key keys) ≠ ⟨k2, h2⟩ :=
          fun heq => hne ((h.beq_iff ⟨k1, h1⟩ ⟨k2, h2⟩).mpr heq)
        rcases IsForest.mixedLt_total hdistinct hne' with hlt | hlt
        · have := (h.compareKeys_lt_iff _ _).mpr hlt
          rw [hcompare] at this
          cases this
        · have := (compareKeys_gt_iff k1 k2).mpr ((h.compareKeys_lt_iff _ _).mpr hlt)
          rw [hcompare] at this
          cases this
      · intro heq
        unfold compareKeys
        rw [if_pos heq]
    · have hmixed := htrans ⟨k1, h1⟩ ⟨k2, h2⟩ ⟨k3, h3⟩
        ((h.compareKeys_lt_iff _ _).mp hlt) ((h.compareKeys_lt_iff _ _).mp hlt')
      exact (h.compareKeys_lt_iff ⟨k1, h1⟩ ⟨k3, h3⟩).mpr hmixed

theorem OrdersKeys.notGt_trans (h : OrdersKeys keys) (hkeys : AreKeys keys)
    {k1 k2 k3 : Expr} (h1 : k1 ∈ keys) (h2 : k2 ∈ keys) (h3 : k3 ∈ keys)
    (h12 : (compareKeys k1 k2 != .gt) = true) (h23 : (compareKeys k2 k3 != .gt) = true) :
    (compareKeys k1 k3 != .gt) = true := by
  cases hcompare : compareKeys k1 k2 with
  | gt =>
    rw [hcompare] at h12
    cases h12
  | eq =>
    rw [hkeys.eq_of_beq h1 h2 ((h.eq_iff k1 h1 k2 h2).mp hcompare)]
    exact h23
  | lt =>
    cases hcompare' : compareKeys k2 k3 with
    | gt =>
      rw [hcompare'] at h23
      cases h23
    | eq =>
      rw [← hkeys.eq_of_beq h2 h3 ((h.eq_iff k2 h2 k3 h3).mp hcompare')]
      exact h12
    | lt =>
      rw [h.trans k1 h1 k2 h2 k3 h3 hcompare hcompare']
      rfl

end Comparator

section Sorted

variable {unfoldingMap : UnfoldingMap}

theorem areKeys (hpath : ∀ key ∈ unfoldingMap.keys, isPath key = true) :
    AreKeys unfoldingMap.keys :=
  ⟨hpath, List.pairwise_map.mpr unfoldingMap.nodup⟩

/-- A sort by a comparator that orders the elements of the list. -/
theorem pairwise_mergeSort_of_mem {α : Type} {le : α → α → Bool} {list : List α}
    (htrans : ∀ a ∈ list, ∀ b ∈ list, ∀ c ∈ list, le a b = true → le b c = true → le a c = true)
    (htotal : ∀ a ∈ list, ∀ b ∈ list, (le a b || le b a) = true) :
    (list.mergeSort le).Pairwise fun a b => le a b = true := by
  have hsorted := @List.pairwise_mergeSort {a // a ∈ list}
    (fun a b => le a.1 b.1) (fun a b c => htrans a.1 a.2 b.1 b.2 c.1 c.2)
    (fun a b => htotal a.1 a.2 b.1 b.2) list.attach
  have hmap := @List.map_mergeSort {a // a ∈ list} α (fun a b => le a.1 b.1) le
    Subtype.val list.attach fun _ _ _ _ => rfl
  rw [List.attach_map_subtype_val] at hmap
  rw [← hmap, List.pairwise_map]
  exact hsorted

/-- The unfoldings around the restored expression, in reverse order. -/
theorem outerLayers_foldl (entries : List (Expr × String × PermAmount × Option EnumVariantIndex))
    (expr : Expr) :
    (entries.foldl (fun expr (arg, name, permAmount, variant) =>
      Expr.unfolding name [arg] expr permAmount variant expr.pos) expr).outerLayers =
      (entries.map fun entry => [entry.1]).reverse ++ expr.outerLayers := by
  induction entries generalizing expr with
  | nil => rfl
  | cons entry entries ih =>
    rw [List.foldl_cons, ih, List.map_cons, List.reverse_cons, List.append_assoc]
    rfl

/-- The restored unfoldings are those of the sorted map. -/
theorem take_outerLayers_restoreUnfoldings (order : IterOrder) (expr : Expr) :
    (restoreUnfoldings order unfoldingMap expr).outerLayers.take
        unfoldingMap.entries.length =
      (((order.iter 0 unfoldingMap.entries).mergeSort fun first second =>
        compareKeys first.1 second.1 != .gt).map fun entry =>
          [entry.1]).reverse := by
  rw [restoreUnfoldings, outerLayers_foldl, List.take_left']
  rw [List.length_reverse, List.length_map, List.length_mergeSort]
  exact (order.iter_perm 0 _).length_eq

/-- If the comparator orders the keys then the sorted unfoldings are enclosed by
those above them. -/
theorem outermostFirst_of_ordersKeys (hkeys : AreKeys unfoldingMap.keys)
    (horders : OrdersKeys unfoldingMap.keys) (order : IterOrder) (expr : Expr) :
    OutermostFirst ((restoreUnfoldings order unfoldingMap expr).outerLayers.take
      unfoldingMap.entries.length) := by
  have hkey : ∀ entry ∈ order.iter 0 unfoldingMap.entries,
      entry.1 ∈ unfoldingMap.keys :=
    fun entry hentry => List.mem_map_of_mem ((order.mem_iter _ _ _).mp hentry)
  have hsorted : ((order.iter 0 unfoldingMap.entries).mergeSort
      fun first second => compareKeys first.1 second.1 != .gt).Pairwise
        fun first second => (compareKeys first.1 second.1 != .gt) = true := by
    refine pairwise_mergeSort_of_mem ?_ ?_
    · intro a ha b hb c hc hab hbc
      exact horders.notGt_trans hkeys (hkey a ha) (hkey b hb) (hkey c hc) hab hbc
    · intro a _ b _
      rw [Bool.or_eq_true, bne_iff_ne, bne_iff_ne]
      by_contra hnot
      push Not at hnot
      rw [(compareKeys_gt_iff _ _).mp hnot.1] at hnot
      exact nomatch hnot.2
  rw [take_outerLayers_restoreUnfoldings, OutermostFirst, List.pairwise_reverse, List.pairwise_map]
  refine hsorted.imp ?_
  intro first second hle below above hbelow habove
  rw [Bool.eq_false_iff]
  intro hproper
  cases List.singleton_inj.mp hbelow
  cases List.singleton_inj.mp habove
  have hgt := (compareKeys_gt_iff first.1 second.1).mpr (compareKeys_of_hasProperPrefix hproper)
  rw [hgt] at hle
  cases hle

/-- In every order the unfoldings of the map are put back, outermost first, by a
comparator that is a strict total order. -/
structure RestoresOutermostFirst (unfoldingMap : UnfoldingMap) : Prop where
  orders : OrdersKeys unfoldingMap.keys
  restored : ∀ order expr,
    ((restoreUnfoldings order unfoldingMap expr).outerLayers.take
      unfoldingMap.entries.length).Perm (unfoldingMap.keys.map fun key => [key])
  outermostFirst : ∀ order expr, OutermostFirst
    ((restoreUnfoldings order unfoldingMap expr).outerLayers.take
      unfoldingMap.entries.length)

theorem restoresOutermostFirst_iff (hpath : ∀ key ∈ unfoldingMap.keys, isPath key = true) :
    RestoresOutermostFirst unfoldingMap ↔ PrintsApart unfoldingMap.keys := by
  have hkeys := areKeys hpath
  rw [← hkeys.ordersKeys_iff]
  refine ⟨fun h => h.orders, fun horders => ⟨horders, fun order expr => ?_,
    fun order expr => outermostFirst_of_ordersKeys hkeys horders order expr⟩⟩
  rw [take_outerLayers_restoreUnfoldings]
  refine (List.reverse_perm _).trans ?_
  unfold HashMap.keys
  rw [List.map_map]
  exact ((List.mergeSort_perm _ _).trans (order.iter_perm 0 _)).map _

end Sorted

end Prusti.Optimizations.Folding

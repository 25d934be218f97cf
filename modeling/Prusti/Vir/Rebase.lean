/-
Places moved from below one place to below another one, which is what the
replacement of a place does to the places below it.
-/
import Prusti.Vir.Transform
import Prusti.Vir.Children

namespace Prusti.Vir.Expr

/-- The way from `target` down to a place, taken from `replacement` instead. -/
inductive Rebased (target replacement : Expr) : Expr → Expr → Prop where
  | base {place place' : Expr} (h : (place == target) = true)
      (h' : (place' == replacement) = true) :
      Rebased target replacement place place'
  | variant {base base' : Expr} {index index' : Field} {pos pos' : Position}
      (h : Rebased target replacement base base')
      (hindex : (index == index') = true) :
      Rebased target replacement (.variant base index pos) (.variant base' index' pos')
  | field {base base' : Expr} {fld fld' : Field} {pos pos' : Position}
      (h : Rebased target replacement base base')
      (hfield : (fld == fld') = true) :
      Rebased target replacement (.field base fld pos) (.field base' fld' pos')
  | addrOf {base base' : Expr} {typ typ' : Typ} {pos pos' : Position}
      (h : Rebased target replacement base base')
      (htype : (typ == typ') = true) :
      Rebased target replacement (.addrOf base typ pos) (.addrOf base' typ' pos')

namespace Rebased

variable {target replacement place place' other other' : Expr}

theorem symm (h : Rebased target replacement place place') :
    Rebased replacement target place' place := by
  induction h with
  | base h h' => exact .base h' h
  | variant _ hindex ih => exact .variant ih (BEq.symm hindex)
  | field _ hfield ih => exact .field ih (BEq.symm hfield)
  | addrOf _ htype ih => exact .addrOf ih (BEq.symm htype)

section

variable (h : Rebased target replacement place place')

include h

theorem hasPrefix : place.hasPrefix target = true := by
  induction h with
  | base h => exact hasPrefix_of_beq h
  | variant _ _ ih | field _ _ ih | addrOf _ _ ih => exact hasPrefix_of_getParent rfl ih

theorem height_eq : place.height + replacement.height = place'.height + target.height := by
  induction h with
  | base h h' => rw [height_congr h, height_congr h', Nat.add_comm]
  | variant _ _ ih | field _ _ ih | addrOf _ _ ih =>
    simp only [height]
    omega

/-- Proper extensions of one place become proper extensions of the other. -/
theorem hasProperPrefix_iff :
    place'.hasProperPrefix replacement = true ↔ place.hasProperPrefix target = true := by
  have hheight := h.height_eq
  have hproper : ∀ {upper lower : Expr}, lower.hasPrefix upper = true →
      (lower.hasProperPrefix upper = true ↔ upper.height < lower.height) := by
    intro upper lower hprefix
    refine ⟨height_lt_of_hasProperPrefix, fun hlt => ?_⟩
    refine (Expr.hasProperPrefix_iff _ _).mpr ⟨?_, hprefix⟩
    rw [Bool.eq_false_iff]
    intro heq
    have := height_congr heq
    omega
  rw [hproper h.hasPrefix, hproper h.symm.hasPrefix]
  omega

/-- Rebasing respects the equality of places. -/
theorem beq (h' : Rebased target replacement other other') (heq : (place == other) = true) :
    (place' == other') = true := by
  induction h generalizing other other' with
  | @base place place' hplace hplace' =>
    have hheight := h'.height_eq
    have hbelow := height_congr hplace
    have hother := height_congr heq
    cases h' with
    | base _ hother' => exact BEq.trans hplace' (BEq.symm hother')
    | variant h' | field h' | addrOf h' =>
      have hle := height_le_of_hasPrefix h'.hasPrefix
      simp only [height] at hother
      omega
  | variant h hindex ih | field h hindex ih | addrOf h hindex ih =>
    have hle := height_le_of_hasPrefix h.hasPrefix
    have hheight := height_congr heq
    cases h' with
    | base hother _ =>
      have := height_congr hother
      simp only [height] at hheight
      omega
    | variant h' hindex' | field h' hindex' | addrOf h' hindex' =>
      first
        | exact absurd heq Bool.false_ne_true
        | (obtain ⟨hbase, hlabel⟩ := Bool.and_eq_true_iff.mp heq
           exact Bool.and_eq_true_iff.mpr ⟨ih h' hbase,
             BEq.trans (BEq.symm hindex) (BEq.trans hlabel hindex')⟩)

theorem beq_self : (place == place) = true := by
  induction h with
  | base h => exact BEq.trans h (BEq.symm h)
  | variant _ _ ih | field _ _ ih | addrOf _ _ ih => exact Bool.and_eq_true_iff.mpr ⟨ih, BEq.rfl⟩

/-- Going back and forth leads to an equal place. -/
theorem beq_of_back (h' : Rebased replacement target place' other) : (other == place) = true :=
  h'.beq h.symm h.symm.beq_self

end

end Rebased

theorem isPlace_congr {place place' : Expr} (h : (place == place') = true) :
    place.isPlace = place'.isPlace := by
  induction place using Expr.children_induction generalizing place' with
  | h place ih _ =>
    cases place <;> cases place' <;> try exact absurd h Bool.false_ne_true
    all_goals try rfl
    case variant.variant | field.field | addrOf.addrOf =>
      have hbase := ih _ (List.mem_singleton_self _) (Bool.and_eq_true_iff.mp h).1
      exact hbase
    case labelledOld.labelledOld =>
      have hbase := ih _ (List.mem_singleton_self _) (Bool.and_eq_true_iff.mp h).2
      exact hbase
    case unfolding.unfolding =>
      have hparts := (Bool.and_eq_true_iff.mp (Bool.and_eq_true_iff.mp h).1).1
      have hbase := ih _ (List.mem_append_right _ (List.mem_singleton_self _))
        (Bool.and_eq_true_iff.mp hparts).2
      exact hbase

theorem patchField_beq (substs : Option Typaram.Substs) (subst : Bool)
    (fld : Field) : (fld == patchField substs subst fld) = true := by
  unfold patchField
  split
  · next name htype =>
      split
      · exact (Field.beq_iff _ _).mpr ⟨rfl, by rw [htype]; rfl⟩
      · exact BEq.rfl
  · exact BEq.rfl

theorem patchField_name (substs : Option Typaram.Substs) (subst : Bool)
    (fld : Field) : (patchField substs subst fld).name = fld.name :=
  ((Field.beq_iff _ _).mp (patchField_beq substs subst fld)).1.symm

/-- The target itself is replaced. -/
theorem foldReplace_of_beq {substs : Option Typaram.Substs}
    {target replacement place : Expr} (htarget : target.isPlace = true)
    (h : (place == target) = true) :
    foldReplace substs target replacement place = (replacement, true) := by
  have hplace : place.isPlace = true := (isPlace_congr h).trans htarget
  cases place with
  | localVar => rw [foldReplace, if_pos h]
  | variant | field | addrOf | labelledOld | unfolding =>
    rw [foldReplace, if_pos (Bool.and_eq_true_iff.mpr ⟨hplace, h⟩)]
  | _ => cases hplace

/-- Replacing a place rebases the places below it. -/
theorem rebased_foldReplace {substs : Option Typaram.Substs}
    {target replacement : Expr} (htarget : target.isPlace = true)
    (hself : (replacement == replacement) = true) (place : Expr)
    (h : place.hasPrefix target = true) :
    Rebased target replacement place (foldReplace substs target replacement place).1 := by
  induction place using parent_induction with
  | step place ih =>
    cases heq : place == target with
    | true =>
      rw [foldReplace_of_beq htarget heq]
      exact .base heq hself
    | false =>
      rcases (hasPrefix_iff _ _).mp h with heq' | ⟨parent, hparent, hprefix⟩
      · rw [heq] at heq'
        cases heq'
      · have hbase := ih parent hparent hprefix
        cases place <;> cases hparent
        · rw [foldReplace, if_neg (by simp [heq])]
          exact .variant hbase BEq.rfl
        · rw [foldReplace, if_neg (by simp [heq])]
          exact .field hbase (patchField_beq _ _ _)
        · rw [foldReplace, if_neg (by simp [heq])]
          exact .addrOf hbase BEq.rfl

end Prusti.Vir.Expr

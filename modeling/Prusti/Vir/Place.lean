/-
Places: expressions that denote a memory location reached from a local
variable.  A place is a prefix of another one if it is found by going up from
the latter through variants, fields and addresses; an `old` label or an
`unfolding` ends the way up.
-/
import Prusti.Vir.Expr

namespace Prusti.Vir.Expr

variable {left right other expr' : Expr}

/-- Is the expression a place? -/
def isPlace : Expr → Bool
  | localVar _ _ => true
  | variant base _ _ | field base _ _ | addrOf base _ _
  | labelledOld _ base _ | unfolding _ _ base _ _ _ => isPlace base
  | _ => false

/-- A place built from variants and fields only. -/
def isSimplePlace : Expr → Bool
  | localVar _ _ => true
  | variant base _ _ | field base _ _ => isSimplePlace base
  | _ => false

def isVariant : Expr → Bool
  | variant _ _ _ => true
  | _ => false

def isLocal : Expr → Bool
  | localVar _ _ => true
  | _ => false

/-- The place one step up.  The source defines it for places only. -/
def getParent : Expr → Option Expr
  | variant base _ _ | field base _ _ | addrOf base _ _ => some base
  | _ => none

/-- The local variable at the root of a place. -/
def getBase : Expr → Option LocalVar
  | localVar var _ => some var
  | variant base _ _ | field base _ _ | addrOf base _ _
  | labelledOld _ base _ | unfolding _ _ base _ _ _ => getBase base
  | _ => none

def getLabel : Expr → Option String
  | labelledOld label _ _ => some label
  | _ => none

def isOld (expr : Expr) : Bool := expr.getLabel.isSome

def isCurr (expr : Expr) : Bool := !expr.isOld

/-- Put an `old[label](..)` around the expression, unless it is a local
variable or has a label already. -/
def old (expr : Expr) (label : String) : Expr :=
  match expr with
  | localVar _ _ | labelledOld _ _ _ => expr
  | _ => labelledOld label expr Position.default

/-- Is this place a MIR reference? -/
def isMirReference : Expr → Bool
  | field (localVar ⟨_, .typedRef name⟩ _) _ _ =>
    "ref$".toList.isPrefixOf name.toList
  | _ => false

/-- Is `other` found on the way up from the place, itself included? -/
def hasPrefix : Expr → Expr → Bool
  | variant base index pos, other =>
    variant base index pos == other || hasPrefix base other
  | field base fld pos, other =>
    field base fld pos == other || hasPrefix base other
  | addrOf base typ pos, other =>
    addrOf base typ pos == other || hasPrefix base other
  | expr, other => expr == other

def hasProperPrefix (expr other : Expr) : Bool := !(expr == other) && expr.hasPrefix other

/-- All prefixes, from the shortest to the longest. -/
def allPrefixes : Expr → List Expr
  | variant base index pos => allPrefixes base ++ [variant base index pos]
  | field base fld pos => allPrefixes base ++ [field base fld pos]
  | addrOf base typ pos => allPrefixes base ++ [addrOf base typ pos]
  | expr => [expr]

def allProperPrefixes (expr : Expr) : List Expr :=
  match expr.getParent with
  | some parent => parent.allPrefixes
  | none => []

/-- The number of steps up that a place has. -/
def height : Expr → Nat
  | variant base _ _ | field base _ _ | addrOf base _ _ => height base + 1
  | _ => 0

theorem hasPrefix_iff (expr other : Expr) :
    expr.hasPrefix other = true ↔
      (expr == other) = true ∨
        ∃ parent, expr.getParent = some parent ∧ parent.hasPrefix other = true := by
  cases expr <;> simp [hasPrefix, getParent]

theorem height_of_getParent {expr parent : Expr}
    (h : expr.getParent = some parent) : expr.height = parent.height + 1 := by
  cases expr <;> simp [getParent] at h <;> subst h <;> rfl

theorem height_of_getParent_eq_none {expr : Expr}
    (h : expr.getParent = none) : expr.height = 0 := by
  cases expr <;> first | rfl | simp [getParent] at h

/-- Induction on the way up from a place. -/
theorem parent_induction {motive : Expr → Prop}
    (step : ∀ expr, (∀ parent, expr.getParent = some parent →
      motive parent) → motive expr) (expr : Expr) : motive expr := by
  induction hheight : expr.height using Nat.strong_induction_on generalizing expr with
  | h n ih =>
    apply step
    intro parent hparent
    have := height_of_getParent hparent
    exact ih parent.height (by omega) parent rfl

/-- Equal expressions have equal parents. -/
theorem getParent_congr (h : (left == right) = true) :
    (left.getParent = none ∧ right.getParent = none) ∨
      ∃ parent parent', left.getParent = some parent ∧
        right.getParent = some parent' ∧ (parent == parent') = true := by
  cases left <;> cases right <;>
    first
      | exact absurd h Bool.false_ne_true
      | exact Or.inl ⟨rfl, rfl⟩
      | exact Or.inr ⟨_, _, rfl, rfl, (Bool.and_eq_true _ _ ▸ h).1⟩

theorem height_congr (h : (left == right) = true) : left.height = right.height := by
  induction left using parent_induction generalizing right with
  | step left ih =>
    rcases getParent_congr h with ⟨hleft, hright⟩ |
      ⟨parent, parent', hleft, hright, heq⟩
    · rw [height_of_getParent_eq_none hleft, height_of_getParent_eq_none hright]
    · rw [height_of_getParent hleft, height_of_getParent hright, ih parent hleft heq]

theorem hasPrefix_of_beq {expr : Expr} (h : (expr == other) = true) : expr.hasPrefix other = true :=
  (hasPrefix_iff expr other).mpr (Or.inl h)

theorem hasPrefix_of_getParent {expr parent : Expr} (hparent : expr.getParent = some parent)
    (h : parent.hasPrefix other = true) : expr.hasPrefix other = true :=
  (hasPrefix_iff expr other).mpr (Or.inr ⟨parent, hparent, h⟩)

theorem hasPrefix_congr_right (expr : Expr) {other' : Expr} (h : (other == other') = true) :
    expr.hasPrefix other = expr.hasPrefix other' := by
  induction expr using parent_induction with
  | step expr ih =>
    rw [Bool.eq_iff_iff, hasPrefix_iff, hasPrefix_iff]
    refine or_congr ?_ ?_
    · rw [Lib.beq_congr_right h expr]
    · refine exists_congr fun parent => and_congr_right fun hparent => ?_
      rw [ih parent hparent]

theorem hasPrefix_congr_left {expr : Expr} (h : (expr == expr') = true) (other : Expr) :
    expr.hasPrefix other = expr'.hasPrefix other := by
  induction expr using parent_induction generalizing expr' with
  | step expr ih =>
    rw [Bool.eq_iff_iff, hasPrefix_iff, hasPrefix_iff]
    rw [BEq.congr_left h]
    refine or_congr_right ?_
    rcases getParent_congr h with ⟨hleft, hright⟩ |
      ⟨parent, parent', hleft, hright, heq⟩
    · simp [hleft, hright]
    · simp [hleft, hright, ih parent hleft heq]

theorem hasPrefix_trans {expr middle : Expr} (h : expr.hasPrefix middle = true)
    (h' : middle.hasPrefix other = true) :
    expr.hasPrefix other = true := by
  induction expr using parent_induction with
  | step expr ih =>
    rcases (hasPrefix_iff expr middle).mp h with heq | ⟨parent, hparent, h⟩
    · rw [hasPrefix_congr_left heq other]
      exact h'
    · exact hasPrefix_of_getParent hparent (ih parent hparent h)

theorem height_le_of_hasPrefix {expr : Expr} (h : expr.hasPrefix other = true) :
    other.height ≤ expr.height := by
  induction expr using parent_induction with
  | step expr ih =>
    rcases (hasPrefix_iff expr other).mp h with heq | ⟨parent, hparent, h⟩
    · exact (height_congr heq).ge
    · have hle := ih parent hparent h
      have := height_of_getParent hparent
      omega

theorem beq_of_hasPrefix_of_height_le {expr : Expr} (h : expr.hasPrefix other = true)
    (hle : expr.height ≤ other.height) :
    (expr == other) = true := by
  rcases (hasPrefix_iff expr other).mp h with heq | ⟨parent, hparent, h⟩
  · exact heq
  · have hparentLe := height_le_of_hasPrefix h
    have := height_of_getParent hparent
    omega

theorem hasPrefix_antisymm (h : left.hasPrefix right = true) (h' : right.hasPrefix left = true) :
    (left == right) = true :=
  beq_of_hasPrefix_of_height_le h (height_le_of_hasPrefix h')

/-- The prefixes of a place form a chain. -/
theorem hasPrefix_total {expr : Expr} (hleft : expr.hasPrefix left = true)
    (hright : expr.hasPrefix right = true) :
    left.hasPrefix right = true ∨ right.hasPrefix left = true := by
  induction expr using parent_induction with
  | step expr ih =>
    rcases (hasPrefix_iff expr left).mp hleft with
      heq | ⟨parent, hparent, hleft'⟩
    · rw [← hasPrefix_congr_left heq right]
      exact Or.inl hright
    · rcases (hasPrefix_iff expr right).mp hright with
        heq | ⟨parent', hparent', hright'⟩
      · rw [← hasPrefix_congr_left heq left]
        exact Or.inr hleft
      · rw [hparent] at hparent'
        cases hparent'
        exact ih parent hparent hleft' hright'

theorem hasProperPrefix_iff (expr other : Expr) :
    expr.hasProperPrefix other = true ↔ (expr == other) = false ∧ expr.hasPrefix other = true := by
  unfold hasProperPrefix
  simp

theorem hasPrefix_of_hasProperPrefix {expr : Expr} (h : expr.hasProperPrefix other = true) :
    expr.hasPrefix other = true :=
  ((hasProperPrefix_iff expr other).mp h).2

/-- A proper prefix is a prefix of the parent. -/
theorem hasProperPrefix_iff_getParent (expr other : Expr) :
    expr.hasProperPrefix other = true ↔
      ∃ parent, expr.getParent = some parent ∧ parent.hasPrefix other = true := by
  rw [hasProperPrefix_iff, hasPrefix_iff]
  constructor
  · rintro ⟨hne, heq | h⟩
    · simp [hne] at heq
    · exact h
  · rintro ⟨parent, hparent, h⟩
    refine ⟨?_, Or.inr ⟨parent, hparent, h⟩⟩
    rw [Bool.eq_false_iff]
    intro heq
    have hle := height_le_of_hasPrefix h
    have := height_of_getParent hparent
    have := height_congr heq
    omega

theorem height_lt_of_hasProperPrefix {expr : Expr} (h : expr.hasProperPrefix other = true) :
    other.height < expr.height := by
  obtain ⟨parent, hparent, h⟩ := (hasProperPrefix_iff_getParent _ _).mp h
  have hle := height_le_of_hasPrefix h
  have := height_of_getParent hparent
  omega

theorem hasProperPrefix_congr_left {expr : Expr} (h : (expr == expr') = true) (other : Expr) :
    expr.hasProperPrefix other = expr'.hasProperPrefix other := by
  unfold hasProperPrefix
  rw [hasPrefix_congr_left h, BEq.congr_left h]

theorem hasProperPrefix_congr_right (expr : Expr) {other' : Expr} (h : (other == other') = true) :
    expr.hasProperPrefix other = expr.hasProperPrefix other' := by
  unfold hasProperPrefix
  rw [hasPrefix_congr_right expr h, Lib.beq_congr_right h]

theorem hasProperPrefix_of_hasProperPrefix_of_hasPrefix {expr middle : Expr}
    (h : expr.hasProperPrefix middle = true) (h' : middle.hasPrefix other = true) :
    expr.hasProperPrefix other = true := by
  obtain ⟨parent, hparent, h⟩ := (hasProperPrefix_iff_getParent _ _).mp h
  exact (hasProperPrefix_iff_getParent _ _).mpr ⟨parent, hparent, hasPrefix_trans h h'⟩

/-- A place that has a prefix can be compared with it. -/
theorem beq_self_of_hasPrefix {expr : Expr} (h : expr.hasPrefix other = true) :
    (other == other) = true := by
  induction expr using parent_induction with
  | step expr ih =>
    rcases (hasPrefix_iff expr other).mp h with heq | ⟨parent, hparent, h⟩
    · exact BEq.trans (BEq.symm heq) heq
    · exact ih parent hparent h

/-- The place is one step below another one. -/
def IsChildOf (expr parent : Expr) : Prop :=
  ∃ above, expr.getParent = some above ∧ (above == parent) = true

namespace IsChildOf

variable {expr parent : Expr}

section

variable (h : expr.IsChildOf parent)

include h

theorem beq_self : (expr == expr) = true := by
  obtain ⟨above, habove, heq⟩ := h
  have hself : eq above above = true := BEq.trans heq (BEq.symm heq)
  cases expr <;> simp only [getParent, reduceCtorEq, Option.some.injEq] at habove
  all_goals
    subst habove
    change (eq _ _ && _) = true
    simp [hself]

theorem hasProperPrefix_eq (other : Expr) :
    expr.hasProperPrefix other = parent.hasPrefix other := by
  obtain ⟨above, habove, heq⟩ := h
  rw [← hasPrefix_congr_left heq other, Bool.eq_iff_iff, hasProperPrefix_iff_getParent]
  simp [habove]

theorem height_eq : expr.height = parent.height + 1 := by
  obtain ⟨above, habove, heq⟩ := h
  rw [height_of_getParent habove, height_congr heq]

/-- A prefix of the parent does not go back down to the child. -/
theorem not_hasPrefix (hother : parent.hasPrefix other = true) : other.hasPrefix expr = false := by
  rw [Bool.eq_false_iff]
  intro habove
  have := height_le_of_hasPrefix habove
  have := height_le_of_hasPrefix hother
  have := h.height_eq
  omega

theorem hasPrefix_parent : expr.hasPrefix parent = true := by
  obtain ⟨above, habove, heq⟩ := h
  exact hasPrefix_of_getParent habove (hasPrefix_of_beq heq)

/-- Siblings are no prefixes of each other. -/
theorem beq_of_hasPrefix (hother : other.IsChildOf parent) (habove : expr.hasPrefix other = true) :
    (expr == other) = true := by
  apply beq_of_hasPrefix_of_height_le habove
  rw [h.height_eq, hother.height_eq]

theorem congr (heq : (expr == expr') = true) : expr'.IsChildOf parent := by
  obtain ⟨above, habove, hparent⟩ := h
  rcases getParent_congr heq with ⟨hnone, _⟩ |
    ⟨above', above'', habove', habove'', heq'⟩
  · rw [habove] at hnone
    cases hnone
  · rw [habove] at habove'
    cases habove'
    exact ⟨above'', habove'', BEq.trans (BEq.symm heq') hparent⟩

end

end IsChildOf

end Prusti.Vir.Expr

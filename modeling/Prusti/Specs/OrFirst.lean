/-
The reading of a Boolean expression in which `||` binds tighter than `&&`, and when it is
Rust's.
-/
import Mathlib.Data.List.Nodup
import Prusti.Specs.RustPrecedence

namespace Prusti.Specs

/-- Operands joined by `||`. -/
structure Disjunction where
  first : RustOperand
  rest : List RustOperand

/-- Disjunctions joined by `&&`. -/
structure OrFirst where
  first : Disjunction
  rest : List Disjunction

namespace Disjunction

def print (disjuncts : Disjunction) : TokenStream :=
  disjuncts.first.print ++
    disjuncts.rest.flatMap fun operand => operatorTokens "||" ++ operand.print

def value (val : Valuation) (disjuncts : Disjunction) : Bool :=
  disjuncts.first.value val || disjuncts.rest.any fun operand => operand.value val

/-- The same expression, with operands that are conjunctions of one. -/
def toRustOr (disjuncts : Disjunction) : RustOr :=
  go disjuncts.first disjuncts.rest
where
  go (first : RustOperand) : List RustOperand → RustOr
    | [] => .single (.single first)
    | second :: rest => .or (.single first) (go second rest)

end Disjunction

namespace OrFirst

def disjunctions (conjuncts : OrFirst) : List Disjunction := conjuncts.first :: conjuncts.rest

def print (conjuncts : OrFirst) : TokenStream :=
  conjuncts.first.print ++
    conjuncts.rest.flatMap fun disjuncts => operatorTokens "&&" ++ disjuncts.print

def value (val : Valuation) (conjuncts : OrFirst) : Bool :=
  conjuncts.first.value val && conjuncts.rest.all fun disjuncts => disjuncts.value val

def single (operand : RustOperand) : OrFirst := ⟨⟨operand, []⟩, []⟩

/-- `operand && after`. -/
def and (operand : RustOperand) (after : OrFirst) : OrFirst :=
  ⟨⟨operand, []⟩, after.first :: after.rest⟩

/-- `operand || after`. -/
def or (operand : RustOperand) (after : OrFirst) : OrFirst :=
  ⟨⟨operand, after.first.first :: after.first.rest⟩, after.rest⟩

end OrFirst

/-- Read the tokens of the conjunction, and of what follows it after `||`. -/
def RustAnd.orFirst (after : Option OrFirst) : RustAnd → OrFirst
  | .single operand => after.elim (.single operand) (.or operand)
  | .and operand rest => .and operand (rest.orFirst after)

/-- Read the tokens of the expression with the precedences the other way round. -/
def RustOr.orFirst : RustOr → OrFirst
  | .single conjuncts => conjuncts.orFirst none
  | .or conjuncts rest => conjuncts.orFirst (some rest.orFirst)

def RustAnd.hasAnd : RustAnd → Bool
  | .single _ => false
  | .and _ _ => true

/-- There is an `&&` outside the parentheses. -/
def RustOr.hasAnd : RustOr → Bool
  | .single conjuncts => conjuncts.hasAnd
  | .or conjuncts rest => conjuncts.hasAnd || rest.hasAnd

/-- There is an `||` outside the parentheses. -/
def RustOr.hasOr : RustOr → Bool
  | .single _ => false
  | .or _ _ => true

/-- Both `&&` and `||` stand outside the parentheses. -/
def RustOr.mixed (expr : RustOr) : Bool := expr.hasAnd && expr.hasOr

/-- Both readings of the expression mean the same. -/
def RustOr.ReadAlike (expr : RustOr) : Prop := ∀ val, expr.orFirst.value val = expr.value val

theorem Disjunction.print_toRustOr (disjuncts : Disjunction) :
    disjuncts.toRustOr.print = disjuncts.print := by
  obtain ⟨first, rest⟩ := disjuncts
  rw [toRustOr, print]
  induction rest generalizing first with
  | nil => rw [toRustOr.go, RustOr.print, RustAnd.print, List.flatMap_nil, List.append_nil]
  | cons second rest ih =>
    rw [toRustOr.go, RustOr.print, RustAnd.print, ih, List.flatMap_cons, List.append_assoc]

theorem Disjunction.value_toRustOr (disjuncts : Disjunction) (val : Valuation) :
    disjuncts.toRustOr.value val = disjuncts.value val := by
  obtain ⟨first, rest⟩ := disjuncts
  rw [toRustOr, value]
  induction rest generalizing first with
  | nil => rw [toRustOr.go, RustOr.value, RustAnd.value, List.any_nil, Bool.or_false]
  | cons second rest ih => rw [toRustOr.go, RustOr.value, RustAnd.value, ih, List.any_cons]

/-- A disjunction of operands means what it means in Rust. -/
theorem Disjunction.rustValue_print (disjuncts : Disjunction) (val : Valuation) :
    rustValue val disjuncts.print = disjuncts.value val := by
  rw [← print_toRustOr, RustOr.rustValue_print, value_toRustOr]

namespace OrFirst

theorem print_and (operand : RustOperand) (after : OrFirst) :
    (and operand after).print = operand.print ++ (operatorTokens "&&" ++ after.print) := by
  simp [and, print, Disjunction.print]

theorem print_or (operand : RustOperand) (after : OrFirst) :
    (or operand after).print = operand.print ++ (operatorTokens "||" ++ after.print) := by
  simp [or, print, Disjunction.print]

@[simp] theorem value_single (operand : RustOperand) (val : Valuation) :
    (single operand).value val = operand.value val := by
  simp [single, value, Disjunction.value]

@[simp] theorem value_and (operand : RustOperand) (after : OrFirst) (val : Valuation) :
    (and operand after).value val = (operand.value val && after.value val) := by
  simp [and, value, Disjunction.value]

/-- If the operand is false, it is as if it were not there. -/
theorem value_or_of_false {operand : RustOperand} {val : Valuation}
    (h : operand.value val = false) (after : OrFirst) :
    (or operand after).value val = after.value val := by
  simp [or, value, Disjunction.value, h]

end OrFirst

theorem RustAnd.print_orFirst (conjuncts : RustAnd) (after : Option OrFirst) :
    (conjuncts.orFirst after).print =
      conjuncts.print ++ after.elim [] fun after => operatorTokens "||" ++ after.print := by
  match conjuncts, after with
  | .single operand, none => simp [orFirst, OrFirst.single, OrFirst.print, Disjunction.print, print]
  | .single operand, some after => exact OrFirst.print_or operand after
  | .and operand rest, after =>
    rw [orFirst, OrFirst.print_and, rest.print_orFirst after, print, List.append_assoc,
      List.append_assoc]

/-- Both readings read the same tokens. -/
theorem RustOr.print_orFirst (expr : RustOr) : expr.orFirst.print = expr.print := by
  cases expr with
  | single conjuncts =>
    rw [orFirst, conjuncts.print_orFirst, Option.elim_none, List.append_nil, print]
  | or conjuncts rest =>
    rw [orFirst, conjuncts.print_orFirst, Option.elim_some, rest.print_orFirst, print]

theorem RustAnd.value_orFirst (conjuncts : RustAnd) (val : Valuation) :
    (conjuncts.orFirst none).value val = conjuncts.value val := by
  cases conjuncts with
  | single operand => exact OrFirst.value_single operand val
  | and operand rest => rw [orFirst, OrFirst.value_and, rest.value_orFirst, value]

theorem RustOr.orFirst_of_not_hasAnd (expr : RustOr) (h : expr.hasAnd = false) :
    ∃ first rest, expr.orFirst = ⟨⟨first, rest⟩, []⟩ := by
  match expr with
  | .single (.single operand) => exact ⟨operand, [], rfl⟩
  | .or (.single operand) rest =>
    obtain ⟨first, operands, hrest⟩ := rest.orFirst_of_not_hasAnd h
    exact ⟨operand, first :: operands, by rw [orFirst, hrest]; rfl⟩

/-- Without `&&`, both readings are the same. -/
theorem RustOr.value_orFirst_of_not_hasAnd (expr : RustOr) (h : expr.hasAnd = false)
    (val : Valuation) : expr.orFirst.value val = expr.value val := by
  match expr with
  | .single conjuncts => exact conjuncts.value_orFirst val
  | .or (.single operand) rest =>
    obtain ⟨first, operands, hrest⟩ := rest.orFirst_of_not_hasAnd h
    have ih := rest.value_orFirst_of_not_hasAnd h val
    rw [hrest] at ih
    rw [value, RustAnd.value, ← ih, orFirst, hrest]
    simp [RustAnd.orFirst, OrFirst.or, OrFirst.value, Disjunction.value]

/-- Where `&&` and `||` do not stand side by side, both readings mean the same. -/
theorem RustOr.readAlike_of_not_mixed {expr : RustOr} (h : expr.mixed = false) :
    expr.ReadAlike := by
  intro val
  rw [mixed, Bool.and_eq_false_iff] at h
  rcases h with h | h
  · exact expr.value_orFirst_of_not_hasAnd h val
  · cases expr with
    | single conjuncts => exact conjuncts.value_orFirst val
    | or conjuncts rest => cases h

section Atoms

mutual

def RustOperand.atoms : RustOperand → List TokenStream
  | .atom atom => [atom.tokens]
  | .not operand => operand.atoms
  | .paren expr => expr.atoms

def RustAnd.atoms : RustAnd → List TokenStream
  | .single operand => operand.atoms
  | .and operand rest => operand.atoms ++ rest.atoms

/-- The atoms of an expression, from left to right. -/
def RustOr.atoms : RustOr → List TokenStream
  | .single conjuncts => conjuncts.atoms
  | .or conjuncts rest => conjuncts.atoms ++ rest.atoms

end

def Disjunction.atoms (disjuncts : Disjunction) : List TokenStream :=
  disjuncts.first.atoms ++ disjuncts.rest.flatMap RustOperand.atoms

def OrFirst.atoms (conjuncts : OrFirst) : List TokenStream :=
  conjuncts.first.atoms ++ conjuncts.rest.flatMap Disjunction.atoms

theorem Disjunction.atoms_toRustOr (disjuncts : Disjunction) :
    disjuncts.toRustOr.atoms = disjuncts.atoms := by
  obtain ⟨first, rest⟩ := disjuncts
  rw [toRustOr, atoms]
  induction rest generalizing first with
  | nil => rw [toRustOr.go, RustOr.atoms, RustAnd.atoms, List.flatMap_nil, List.append_nil]
  | cons second rest ih => rw [toRustOr.go, RustOr.atoms, RustAnd.atoms, ih, List.flatMap_cons]

theorem OrFirst.atoms_and (operand : RustOperand) (after : OrFirst) :
    (and operand after).atoms = operand.atoms ++ after.atoms := by
  simp [and, atoms, Disjunction.atoms]

theorem OrFirst.atoms_or (operand : RustOperand) (after : OrFirst) :
    (or operand after).atoms = operand.atoms ++ after.atoms := by
  simp [or, atoms, Disjunction.atoms]

theorem RustAnd.atoms_orFirst (conjuncts : RustAnd) (after : Option OrFirst) :
    (conjuncts.orFirst after).atoms = conjuncts.atoms ++ after.elim [] OrFirst.atoms := by
  match conjuncts, after with
  | .single operand, none => simp [orFirst, OrFirst.single, OrFirst.atoms, Disjunction.atoms, atoms]
  | .single operand, some after => exact OrFirst.atoms_or operand after
  | .and operand rest, after =>
    rw [orFirst, OrFirst.atoms_and, rest.atoms_orFirst after, atoms, List.append_assoc]

theorem RustOr.atoms_orFirst (expr : RustOr) : expr.orFirst.atoms = expr.atoms := by
  cases expr with
  | single conjuncts =>
    rw [orFirst, conjuncts.atoms_orFirst, Option.elim_none, List.append_nil, atoms]
  | or conjuncts rest =>
    rw [orFirst, conjuncts.atoms_orFirst, Option.elim_some, rest.atoms_orFirst, atoms]

mutual

theorem RustOperand.value_congr (operand : RustOperand) {val val' : Valuation}
    (h : ∀ atom ∈ operand.atoms, val atom = val' atom) :
    operand.value val = operand.value val' := by
  match operand with
  | .atom atom => exact h atom.tokens List.mem_cons_self
  | .not operand => rw [RustOperand.value, RustOperand.value, operand.value_congr h]
  | .paren expr => exact expr.value_congr h

theorem RustAnd.value_congr (conjuncts : RustAnd) {val val' : Valuation}
    (h : ∀ atom ∈ conjuncts.atoms, val atom = val' atom) :
    conjuncts.value val = conjuncts.value val' := by
  match conjuncts with
  | .single operand => exact operand.value_congr h
  | .and operand rest =>
    rw [RustAnd.value, RustAnd.value,
      operand.value_congr fun atom hmem => h atom (List.mem_append_left _ hmem),
      rest.value_congr fun atom hmem => h atom (List.mem_append_right _ hmem)]

/-- Only the atoms of an expression matter to its value. -/
theorem RustOr.value_congr (expr : RustOr) {val val' : Valuation}
    (h : ∀ atom ∈ expr.atoms, val atom = val' atom) : expr.value val = expr.value val' := by
  match expr with
  | .single conjuncts => exact conjuncts.value_congr h
  | .or conjuncts rest =>
    rw [RustOr.value, RustOr.value,
      conjuncts.value_congr fun atom hmem => h atom (List.mem_append_left _ hmem),
      rest.value_congr fun atom hmem => h atom (List.mem_append_right _ hmem)]

end

theorem OrFirst.value_congr (conjuncts : OrFirst) {val val' : Valuation}
    (h : ∀ atom ∈ conjuncts.atoms, val atom = val' atom) :
    conjuncts.value val = conjuncts.value val' := by
  have hdisjuncts : ∀ disjuncts ∈ conjuncts.disjunctions,
      disjuncts.value val = disjuncts.value val' := by
    intro disjuncts hmem
    rw [← disjuncts.value_toRustOr, ← disjuncts.value_toRustOr]
    refine disjuncts.toRustOr.value_congr fun atom hatom => h atom ?_
    rw [disjuncts.atoms_toRustOr] at hatom
    exact List.mem_flatMap_of_mem (f := Disjunction.atoms) hmem hatom
  have hall : ∀ val, conjuncts.value val =
      conjuncts.disjunctions.all fun disjuncts => disjuncts.value val := fun _ => rfl
  rw [hall, hall, Bool.eq_iff_iff, List.all_eq_true, List.all_eq_true]
  exact forall₂_congr fun disjuncts hmem => by rw [hdisjuncts disjuncts hmem]

/-- Valuations of different atoms can be put together. -/
theorem exists_valuation {left right : List TokenStream} (hdisjoint : left.Disjoint right)
    (val val' : Valuation) :
    ∃ merged : Valuation, (∀ atom ∈ left, merged atom = val atom) ∧
      ∀ atom ∈ right, merged atom = val' atom := by
  classical
  refine ⟨fun atom => if atom ∈ left then val atom else val' atom, ?_, ?_⟩
  · intro atom hmem
    exact if_pos hmem
  · intro atom hmem
    exact if_neg fun hleft => hdisjoint hleft hmem

mutual

theorem RustOperand.exists_value (operand : RustOperand) (hnodup : operand.atoms.Nodup)
    (result : Bool) : ∃ val, operand.value val = result := by
  match operand with
  | .atom atom => exact ⟨fun _ => result, rfl⟩
  | .not operand =>
    obtain ⟨val, hval⟩ := operand.exists_value hnodup (!result)
    exact ⟨val, by rw [RustOperand.value, hval, Bool.not_not]⟩
  | .paren expr => exact expr.exists_value hnodup result

theorem RustAnd.exists_value (conjuncts : RustAnd) (hnodup : conjuncts.atoms.Nodup)
    (result : Bool) : ∃ val, conjuncts.value val = result := by
  match conjuncts with
  | .single operand => exact operand.exists_value hnodup result
  | .and operand rest =>
    obtain ⟨hoperand, hrest, hdisjoint⟩ := List.nodup_append'.mp hnodup
    obtain ⟨val, hval⟩ := operand.exists_value hoperand result
    obtain ⟨val', hval'⟩ := rest.exists_value hrest result
    obtain ⟨merged, hleft, hright⟩ := exists_valuation hdisjoint val val'
    refine ⟨merged, ?_⟩
    rw [RustAnd.value, operand.value_congr hleft, rest.value_congr hright, hval, hval',
      Bool.and_self]

/-- An expression without repeated atoms takes both values. -/
theorem RustOr.exists_value (expr : RustOr) (hnodup : expr.atoms.Nodup) (result : Bool) :
    ∃ val, expr.value val = result := by
  match expr with
  | .single conjuncts => exact conjuncts.exists_value hnodup result
  | .or conjuncts rest =>
    obtain ⟨hconjuncts, hrest, hdisjoint⟩ := List.nodup_append'.mp hnodup
    obtain ⟨val, hval⟩ := conjuncts.exists_value hconjuncts result
    obtain ⟨val', hval'⟩ := rest.exists_value hrest result
    obtain ⟨merged, hleft, hright⟩ := exists_valuation hdisjoint val val'
    refine ⟨merged, ?_⟩
    rw [RustOr.value, conjuncts.value_congr hleft, rest.value_congr hright, hval, hval',
      Bool.or_self]

end

/-- Without repeated atoms, the readings of an expression that mixes `&&` and `||` differ
under some valuation. -/
theorem RustOr.exists_value_ne (expr : RustOr) (hnodup : expr.atoms.Nodup)
    (hmixed : expr.mixed = true) : ∃ val, expr.orFirst.value val ≠ expr.value val := by
  match expr with
  | .or (.and operand others) rest =>
    -- the first operand is false, and what follows `||` is true
    obtain ⟨hconjuncts, hrest, hdisjoint⟩ := List.nodup_append'.mp hnodup
    have hoperand := (List.nodup_append'.mp hconjuncts).1
    obtain ⟨val, hval⟩ := operand.exists_value hoperand false
    obtain ⟨val', hval'⟩ := rest.exists_value hrest true
    obtain ⟨merged, hleft, hright⟩ := exists_valuation hdisjoint val val'
    refine ⟨merged, ?_⟩
    have hfalse : operand.value merged = false := by
      rw [← hval]
      exact operand.value_congr fun atom hmem => hleft atom (List.mem_append_left _ hmem)
    rw [orFirst, RustAnd.orFirst, OrFirst.value_and, hfalse, RustOr.value,
      rest.value_congr hright, hval']
    simp
  | .or (.single operand) (.single (.and second others)) =>
    -- the first operand is true, and the conjuncts after the second operand are false
    obtain ⟨hoperand, hrest, hdisjoint⟩ := List.nodup_append'.mp hnodup
    have hothers := (List.nodup_append'.mp hrest).2.1
    obtain ⟨val, hval⟩ := operand.exists_value hoperand true
    obtain ⟨val', hval'⟩ := others.exists_value hothers false
    obtain ⟨merged, hleft, hright⟩ := exists_valuation hdisjoint val val'
    refine ⟨merged, ?_⟩
    have hfalse : others.value merged = false := by
      rw [← hval']
      exact others.value_congr fun atom hmem => hright atom (List.mem_append_right _ hmem)
    have horFirst : (RustOr.or (.single operand) (.single (.and second others))).orFirst =
        ⟨⟨operand, [second]⟩, (others.orFirst none).disjunctions⟩ := rfl
    have hread : (others.orFirst none).disjunctions.all
        (fun disjuncts => disjuncts.value merged) = others.value merged :=
      others.value_orFirst merged
    rw [horFirst, OrFirst.value, hread, hfalse, RustOr.value, RustAnd.value,
      operand.value_congr hleft, hval]
    simp
  | .or (.single operand) (.or conjuncts rest) =>
    obtain ⟨hoperand, hrest, hdisjoint⟩ := List.nodup_append'.mp hnodup
    have hmixed' : (RustOr.or conjuncts rest).mixed = true := hmixed
    obtain ⟨val', hval'⟩ := (RustOr.or conjuncts rest).exists_value_ne hrest hmixed'
    obtain ⟨val, hval⟩ := operand.exists_value hoperand false
    obtain ⟨merged, hleft, hright⟩ := exists_valuation hdisjoint val val'
    have hfalse : operand.value merged = false := by rw [operand.value_congr hleft, hval]
    refine ⟨merged, ?_⟩
    rw [orFirst, RustAnd.orFirst, Option.elim_some, OrFirst.value_or_of_false hfalse,
      OrFirst.value_congr _ (by rwa [RustOr.atoms_orFirst]), RustOr.value, RustAnd.value,
      hfalse, Bool.false_or, RustOr.value_congr _ hright]
    exact hval'
  | .single conjuncts =>
    rw [mixed, hasOr, Bool.and_false] at hmixed
    cases hmixed

end Atoms

end Prusti.Specs

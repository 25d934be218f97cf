/-
Positions, permission amounts, types, variables and fields of the Viper
intermediate representation.  The equality of types looks at the outermost
constructor only, so that variables and fields are compared by name and kind.
-/
import Prusti.Lib.HashMap
import Mathlib.Tactic.Linarith

namespace Prusti.Vir

/-- The identifier of a statement, used in error reporting. -/
structure Position where
  line : Int
  column : Int
  id : Nat
deriving Repr, DecidableEq

def Position.default : Position := ⟨0, 0, 0⟩

def Position.isDefault (pos : Position) : Bool := pos.line == 0 && pos.column == 0 && pos.id == 0

/-- The permission amount.  `remaining` is what is left after `read` was
subtracted from `write`. -/
inductive PermAmount where
  | read
  | write
  | remaining
deriving Repr, DecidableEq

namespace PermAmount

/-- Can this permission amount be used in specifications? -/
def isValidForSpecs : PermAmount → Bool
  | read | write => true
  | remaining => false

/-- The sum of two amounts; every other sum is an `InvalidAdd`. -/
def add : PermAmount → PermAmount → Option PermAmount
  | read, remaining | remaining, read => some write
  | _, _ => none

theorem add_self (amount : PermAmount) : amount.add amount = none := by
  cases amount <;> rfl

/-- A sum is the full amount, which takes no more. -/
theorem add_add_eq_none {left right sum : PermAmount}
    (h : left.add right = some sum) (amount : PermAmount) :
    sum.add amount = none := by
  cases left <;> cases right <;> cases h <;> cases amount <;> rfl

/-- The difference of two amounts; every other one is an `InvalidSub`. -/
def sub : PermAmount → PermAmount → Option PermAmount
  | write, read => some remaining
  | write, remaining => some read
  | _, _ => none

/-- The partial order of the source: `remaining` is comparable to nothing, not
even to itself. -/
def partialCmp : PermAmount → PermAmount → Option Ordering
  | read, write => some .lt
  | read, read | write, write => some .eq
  | write, read => some .gt
  | _, _ => none

/-- The operator `>=` derived from `partialCmp`. -/
def ge (left right : PermAmount) : Bool :=
  match left.partialCmp right with
  | some .gt | some .eq => true
  | _ => false

def display : PermAmount → String
  | read => "read"
  | write => "write"
  | remaining => "write-read"

/-- The smallest amount of a non-empty sequence.  The total order panics on
`remaining`, and as soon as there are two elements every element takes part in
a comparison. -/
def min? : List PermAmount → Option (Option PermAmount)
  | [] => some none
  | [amount] => some (some amount)
  | amounts =>
    if amounts.any (· == .remaining) then none
    else if amounts.any (· == .read) then some (some .read)
    else some (some .write)

/-- The Viper value of an amount, for a given value of the `read` fraction. -/
def value (ρ : ℚ) : PermAmount → ℚ
  | read => ρ
  | write => 1
  | remaining => 1 - ρ

theorem value_pos {ρ : ℚ} (h0 : 0 < ρ) (h1 : ρ < 1) (amount : PermAmount) : 0 < amount.value ρ := by
  cases amount with
  | read => exact h0
  | write => exact one_pos
  | remaining => exact sub_pos.mpr h1

theorem value_add {ρ : ℚ} {left right sum : PermAmount} (h : left.add right = some sum) :
    sum.value ρ = left.value ρ + right.value ρ := by
  cases left <;> cases right <;> simp [add] at h <;> subst h <;>
    simp [value]

theorem value_sub {ρ : ℚ} {left right difference : PermAmount}
    (h : left.sub right = some difference) :
    difference.value ρ = left.value ρ - right.value ρ := by
  cases left <;> cases right <;> simp [sub] at h <;> subst h <;>
    simp [value]

end PermAmount

/-- The types of expressions. -/
inductive Typ where
  | int
  | bool
  | seq (elem : Typ)
  /-- The name is that of the predicate that encodes the type. -/
  | typedRef (name : String)
  | domain (name : String)
  | snapshot (name : String)
deriving Repr, DecidableEq

/-- The discriminant of a type. -/
inductive TypeId where
  | int
  | bool
  | ref
  | seq
  | domain
  | snapshot
deriving Repr, DecidableEq

namespace Typ

def getId : Typ → TypeId
  | bool => .bool
  | int => .int
  | typedRef _ => .ref
  | domain _ => .domain
  | snapshot _ => .snapshot
  | seq _ => .seq

/-- The equality of types compares discriminants only. -/
instance : BEq Typ := ⟨fun left right => left.getId == right.getId⟩

theorem beq_iff (left right : Typ) : (left == right) = true ↔ left.getId = right.getId := by
  change (left.getId == right.getId) = true ↔ _
  simp

instance : EquivBEq Typ where
  symm {left right} h := by
    rw [beq_iff] at h ⊢
    exact h.symm
  trans {left middle right} h h' := by
    rw [beq_iff] at h h' ⊢
    exact h.trans h'
  rfl {typ} := by rw [beq_iff]

def isRef : Typ → Bool
  | typedRef _ => true
  | _ => false

def name : Typ → String
  | bool => "bool"
  | int => "int"
  | typedRef predName => predName
  | domain predName => predName
  | snapshot predName => predName
  | seq _ => "Seq"

/-- The type of an enum variant; `none` stands for the `unreachable!` case. -/
def variant (typ : Typ) (variant : String) : Option Typ :=
  match typ with
  | typedRef name => some (typedRef (name ++ variant))
  | _ => none

end Typ

structure LocalVar where
  name : String
  typ : Typ
deriving Repr, DecidableEq

structure Field where
  name : String
  typ : Typ
deriving Repr, DecidableEq

instance : BEq LocalVar := ⟨fun left right =>
  left.name == right.name && left.typ == right.typ⟩

instance : BEq Field := ⟨fun left right =>
  left.name == right.name && left.typ == right.typ⟩

theorem LocalVar.beq_iff (left right : LocalVar) :
    (left == right) = true ↔ left.name = right.name ∧ (left.typ == right.typ) = true := by
  change (left.name == right.name && left.typ == right.typ) = true ↔ _
  simp

theorem Field.beq_iff (left right : Field) :
    (left == right) = true ↔ left.name = right.name ∧ (left.typ == right.typ) = true := by
  change (left.name == right.name && left.typ == right.typ) = true ↔ _
  simp

instance : EquivBEq LocalVar where
  symm {left right} h := by
    rw [LocalVar.beq_iff] at h ⊢
    exact ⟨h.1.symm, BEq.symm h.2⟩
  trans {left middle right} h h' := by
    rw [LocalVar.beq_iff] at h h' ⊢
    exact ⟨h.1.trans h'.1, BEq.trans h.2 h'.2⟩
  rfl {var} := by
    rw [LocalVar.beq_iff]
    exact ⟨rfl, BEq.rfl⟩

instance : EquivBEq Field where
  symm {left right} h := by
    rw [Field.beq_iff] at h ⊢
    exact ⟨h.1.symm, BEq.symm h.2⟩
  trans {left middle right} h h' := by
    rw [Field.beq_iff] at h h' ⊢
    exact ⟨h.1.trans h'.1, BEq.trans h.2 h'.2⟩
  rfl {field} := by
    rw [Field.beq_iff]
    exact ⟨rfl, BEq.rfl⟩

/-- The index of an enum variant is its name. -/
structure EnumVariantIndex where
  name : String
deriving Repr, DecidableEq

/-- The conversion from a variant field asserts the prefix `enum_` and cuts it
off. -/
def Field.toVariantIndex (field : Field) : Option EnumVariantIndex :=
  if "enum_".toList.isPrefixOf field.name.toList then
    some ⟨String.ofList (field.name.toList.drop 5)⟩
  else none

/-- The method-unique borrow identifier. -/
structure Borrow where
  index : Nat
deriving Repr, DecidableEq

inductive UnaryOpKind where
  | not
  | minus
deriving Repr, DecidableEq

inductive BinOpKind where
  | eqCmp
  | neCmp
  | gtCmp
  | geCmp
  | ltCmp
  | leCmp
  | add
  | sub
  | mul
  | div
  | mod
  | and
  | or
  | implies
deriving Repr, DecidableEq

inductive ContainerOpKind where
  | seqIndex
  | seqConcat
  | seqLen
deriving Repr, DecidableEq

inductive Const where
  | bool (value : Bool)
  | int (value : Int)
  | bigInt (digits : String)
  /-- All function pointers share the same constant. -/
  | fnPtr
deriving Repr, DecidableEq

/-- A function symbol of a domain. -/
structure DomainFunc where
  name : String
  formalArgs : List LocalVar
  returnType : Typ
  unique : Bool
  domainName : String
deriving Repr, DecidableEq

instance : BEq DomainFunc := ⟨fun left right =>
  left.name == right.name && left.formalArgs == right.formalArgs &&
    left.returnType == right.returnType && left.unique == right.unique &&
    left.domainName == right.domainName⟩

theorem DomainFunc.beq_iff (left right : DomainFunc) :
    (left == right) = true ↔
      left.name = right.name ∧
        (left.formalArgs == right.formalArgs) = true ∧
        (left.returnType == right.returnType) = true ∧
        left.unique = right.unique ∧ left.domainName = right.domainName := by
  change (left.name == right.name && left.formalArgs == right.formalArgs &&
    left.returnType == right.returnType && left.unique == right.unique &&
    left.domainName == right.domainName) = true ↔ _
  simp [and_assoc]

instance : EquivBEq DomainFunc where
  symm {left right} h := by
    rw [DomainFunc.beq_iff] at h ⊢
    obtain ⟨hname, hargs, htyp, hunique, hdomain⟩ := h
    exact ⟨hname.symm, BEq.symm hargs, BEq.symm htyp, hunique.symm, hdomain.symm⟩
  trans {left middle right} h h' := by
    rw [DomainFunc.beq_iff] at h h' ⊢
    obtain ⟨hname, hargs, htyp, hunique, hdomain⟩ := h
    obtain ⟨hname', hargs', htyp', hunique', hdomain'⟩ := h'
    exact ⟨hname.trans hname', BEq.trans hargs hargs', BEq.trans htyp htyp',
      hunique.trans hunique', hdomain.trans hdomain'⟩
  rfl {func} := by
    rw [DomainFunc.beq_iff]
    exact ⟨rfl, BEq.rfl, BEq.rfl, rfl, rfl⟩

end Prusti.Vir

/-
The interner of names: long unique names get readable symbols, and the symbols are as
unique as the names.
-/
import Prusti.Lib.HashMap

namespace Prusti.Encoder

open Prusti.Lib

structure NameInterner where
  nameToSymbol : HashMap String String
  usedSymbols : HashSet String

/-- The arguments of a call of the interner. -/
structure InternCall where
  fullUniqueName : String
  readableNames : List String
deriving Repr

namespace NameInterner

def new : NameInterner := ⟨HashMap.empty, HashMap.empty⟩

/-- The debug assertions: no readable name is empty, none was the full name of
something else, and the full name is no symbol yet unless it is known. -/
def debugAsserts (interner : NameInterner) (call : InternCall) : Bool :=
  !(call.readableNames.any fun name => name == "") &&
    !(call.readableNames.any fun name =>
      name != call.fullUniqueName && interner.nameToSymbol.contains name) &&
    (interner.nameToSymbol.contains call.fullUniqueName ||
      !interner.usedSymbols.contains call.fullUniqueName)

/-- The symbol for a full name: the first readable name that is not used, or the full
name itself. -/
def intern (interner : NameInterner) (call : InternCall) : String × NameInterner :=
  match interner.nameToSymbol.get? call.fullUniqueName with
  | some symbol => (symbol, interner)
  | none =>
    let symbol := (call.readableNames.find? fun name =>
      !interner.usedSymbols.contains name).getD call.fullUniqueName
    (symbol, ⟨interner.nameToSymbol.insert call.fullUniqueName symbol,
      HashSet.insert interner.usedSymbols symbol⟩)

/-- One call after the other. -/
def internAll (interner : NameInterner) : List InternCall → List String × NameInterner
  | [] => ([], interner)
  | call :: calls =>
    let (symbol, interner) := interner.intern call
    let (symbols, interner) := interner.internAll calls
    (symbol :: symbols, interner)

/-- One call after the other, with the debug assertions; `none` stands for a failed
one. -/
def internAllDebug (interner : NameInterner) : List InternCall → Option (List String)
  | [] => some []
  | call :: calls =>
    if interner.debugAsserts call then
      let (symbol, interner) := interner.intern call
      (interner.internAllDebug calls).map (symbol :: ·)
    else none

/-- What the callers have to ensure: a readable name is not the full name of something
else, neither in the past nor in the future. -/
def Admissible (calls : List InternCall) : Prop :=
  ∀ call ∈ calls, ∀ other ∈ calls, other.fullUniqueName ∈ call.readableNames →
    other.fullUniqueName = call.fullUniqueName

/-- The state in the middle of a sequence of calls. -/
structure Inv (calls : List InternCall) (interner : NameInterner) : Prop where
  injective : ∀ name name' symbol, interner.nameToSymbol.get? name = some symbol →
    interner.nameToSymbol.get? name' = some symbol → name = name'
  used : ∀ symbol, interner.usedSymbols.contains symbol = true ↔
    ∃ name, interner.nameToSymbol.get? name = some symbol
  origin : ∀ name symbol, interner.nameToSymbol.get? name = some symbol →
    ∃ call ∈ calls, call.fullUniqueName = name ∧ (symbol = name ∨ symbol ∈ call.readableNames)

theorem inv_new (calls : List InternCall) : Inv calls new where
  injective name name' symbol h := by cases h
  used symbol := by
    constructor
    · intro h
      cases h
    · rintro ⟨name, h⟩
      cases h
  origin name symbol h := by cases h

section Run

variable {calls : List InternCall} {interner : NameInterner} {call : InternCall}

namespace Inv

section

variable (h : Inv calls interner) (hcalls : Admissible calls) (hcall : call ∈ calls)

include h hcalls hcall

/-- A full name that is not known yet is no symbol. -/
theorem not_symbol (hnone : interner.nameToSymbol.get? call.fullUniqueName = none) (name : String) :
    interner.nameToSymbol.get? name ≠ some call.fullUniqueName := by
  intro hname
  have hsame : call.fullUniqueName = name := by
    obtain ⟨earlier, hearlier, rfl, hsymbol | hreadable⟩ := h.origin _ _ hname
    · exact hsymbol
    · exact hcalls earlier hearlier call hcall hreadable
  rw [hsame] at hnone
  rw [hname] at hnone
  cases hnone

theorem new_symbol (hnone : interner.nameToSymbol.get? call.fullUniqueName = none) (name : String) :
    interner.nameToSymbol.get? name ≠ some ((call.readableNames.find? fun name =>
      !interner.usedSymbols.contains name).getD call.fullUniqueName) := by
  cases hfind : call.readableNames.find? fun name =>
      !interner.usedSymbols.contains name with
  | none => exact h.not_symbol hcalls hcall hnone name
  | some symbol =>
    have hunused := List.find?_some hfind
    rw [Bool.not_eq_true', ← Bool.not_eq_true, h.used] at hunused
    exact fun hname => hunused ⟨name, hname⟩

theorem intern : Inv calls (interner.intern call).2 := by
  unfold NameInterner.intern
  split
  · exact h
  · next hnone =>
      have hnew := h.new_symbol hcalls hcall hnone
      generalize hsymbol : (call.readableNames.find? fun name =>
        !interner.usedSymbols.contains name).getD call.fullUniqueName = symbol at hnew
      refine ⟨?_, ?_, ?_⟩
      · intro name name' symbol' hname hname'
        simp only [HashMap.get?_insert] at hname hname'
        split at hname <;> split at hname'
        · next heq heq' => rw [← eq_of_beq heq, ← eq_of_beq heq']
        · cases hname
          exact absurd hname' (hnew name')
        · cases hname'
          exact absurd hname (hnew name)
        · exact h.injective name name' symbol' hname hname'
      · intro symbol'
        simp only [HashSet.contains_insert, Bool.or_eq_true, h.used, HashMap.get?_insert]
        constructor
        · rintro (heq | ⟨name, hname⟩)
          · exact ⟨call.fullUniqueName, by simp [eq_of_beq heq]⟩
          · refine ⟨name, ?_⟩
            rw [if_neg ?_]
            · exact hname
            · intro heq
              rw [← eq_of_beq heq, hnone] at hname
              cases hname
        · rintro ⟨name, hname⟩
          split at hname
          · cases hname
            exact .inl BEq.rfl
          · exact .inr ⟨name, hname⟩
      · intro name symbol' hname
        simp only [HashMap.get?_insert] at hname
        split at hname
        · next heq =>
            cases hname
            refine ⟨call, hcall, eq_of_beq heq, ?_⟩
            rw [← hsymbol]
            cases hfind : call.readableNames.find? fun name =>
                !interner.usedSymbols.contains name with
            | none => exact .inl (eq_of_beq heq)
            | some readable => exact .inr (List.mem_of_find?_eq_some hfind)
        · exact h.origin name symbol' hname

/-- Under the precondition the last two debug assertions never fail. -/
theorem debugAsserts_iff : interner.debugAsserts call = true ↔ "" ∉ call.readableNames := by
  have hpast : (call.readableNames.any fun name =>
      name != call.fullUniqueName && interner.nameToSymbol.contains name) = false := by
    rw [List.any_eq_false]
    intro name hname hbad
    rw [Bool.and_eq_true, bne_iff_ne, HashMap.contains_eq_isSome, Option.isSome_iff_exists] at hbad
    obtain ⟨hne, symbol, hsymbol⟩ := hbad
    obtain ⟨earlier, hearlier, rfl, -⟩ := h.origin _ _ hsymbol
    exact hne (hcalls call hcall earlier hearlier hname)
  have hfuture : (interner.nameToSymbol.contains call.fullUniqueName ||
      !interner.usedSymbols.contains call.fullUniqueName) = true := by
    cases hknown : interner.nameToSymbol.get? call.fullUniqueName with
    | some symbol =>
      rw [HashMap.contains_eq_isSome, hknown]
      rfl
    | none =>
      have hunused : interner.usedSymbols.contains call.fullUniqueName = false := by
        rw [← Bool.not_eq_true, h.used]
        rintro ⟨name, hname⟩
        exact h.not_symbol hcalls hcall hknown name hname
      rw [hunused, Bool.not_false, Bool.or_true]
  rw [debugAsserts, hpast, hfuture, Bool.not_false, Bool.and_true, Bool.and_true,
    Bool.not_eq_true', List.any_eq_false]
  constructor
  · intro hne hempty
    exact hne "" hempty BEq.rfl
  · intro hempty name hname heq
    exact hempty (eq_of_beq heq ▸ hname)

end

end Inv

/-- A known name keeps its symbol. -/
theorem get?_intern {name symbol : String} (h : interner.nameToSymbol.get? name = some symbol) :
    (interner.intern call).2.nameToSymbol.get? name = some symbol := by
  unfold intern
  split
  · exact h
  · next hnone =>
      simp only [HashMap.get?_insert]
      split
      · next heq =>
          rw [← eq_of_beq heq, hnone] at h
          cases h
      · exact h

/-- The symbol that is returned is recorded. -/
theorem get?_intern_self :
    (interner.intern call).2.nameToSymbol.get? call.fullUniqueName =
      some (interner.intern call).1 := by
  unfold intern
  split
  · next hsome => exact hsome
  · simp [HashMap.get?_insert]

theorem get?_internAll {name symbol : String} (calls : List InternCall)
    (h : interner.nameToSymbol.get? name = some symbol) :
    (interner.internAll calls).2.nameToSymbol.get? name = some symbol := by
  induction calls generalizing interner with
  | nil => exact h
  | cons call calls ih => exact ih (get?_intern h)

/-- Every call returns what the interner knows in the end. -/
theorem get?_of_mem_zip (calls : List InternCall) {symbol : String}
    (h : (call, symbol) ∈ calls.zip (interner.internAll calls).1) :
    (interner.internAll calls).2.nameToSymbol.get? call.fullUniqueName = some symbol := by
  induction calls generalizing interner with
  | nil => cases h
  | cons first calls ih =>
    rw [internAll, List.zip_cons_cons, List.mem_cons] at h
    rcases h with heq | hmem
    · cases heq
      exact get?_internAll calls get?_intern_self
    · exact ih hmem

theorem length_internAll (calls : List InternCall) :
    (interner.internAll calls).1.length = calls.length := by
  induction calls generalizing interner with
  | nil => rfl
  | cons call calls ih => exact congrArg (· + 1) ih

/-- The invariant holds after every sequence of admissible calls. -/
theorem Inv.internAll {all : List InternCall} (h : Inv all interner)
    (hall : Admissible all) (calls : List InternCall) (hsubset : calls ⊆ all) :
    Inv all (interner.internAll calls).2 := by
  induction calls generalizing interner with
  | nil => exact h
  | cons call calls ih =>
    rw [List.cons_subset] at hsubset
    exact ih (h.intern hall hsubset.1) hsubset.2

theorem internAllDebug_eq {all : List InternCall} (h : Inv all interner)
    (hall : Admissible all) (calls : List InternCall) (hsubset : calls ⊆ all)
    (hnonempty : ∀ call ∈ calls, "" ∉ call.readableNames) :
    interner.internAllDebug calls = some (interner.internAll calls).1 := by
  induction calls generalizing interner with
  | nil => rfl
  | cons call calls ih =>
    rw [List.cons_subset] at hsubset
    rw [List.forall_mem_cons] at hnonempty
    rw [internAllDebug, if_pos ((h.debugAsserts_iff hall hsubset.1).mpr hnonempty.1)]
    exact congrArg (Option.map _) (ih (h.intern hall hsubset.1) hsubset.2 hnonempty.2)

end Run

/-- Two calls return the same symbol if and only if they are given the same full name.
Every call returns a symbol, and the debug assertions hold as long as no readable name
is empty. -/
theorem symbol_eq_iff (calls : List InternCall) (hcalls : Admissible calls) :
    (new.internAll calls).1.length = calls.length ∧
      (∀ entry ∈ calls.zip (new.internAll calls).1,
        ∀ entry' ∈ calls.zip (new.internAll calls).1,
          entry.2 = entry'.2 ↔ entry.1.fullUniqueName = entry'.1.fullUniqueName) ∧
      ((∀ call ∈ calls, "" ∉ call.readableNames) →
        new.internAllDebug calls = some (new.internAll calls).1) := by
  refine ⟨length_internAll calls, ?_, ?_⟩
  · rintro ⟨call, symbol⟩ hentry ⟨call', symbol'⟩ hentry'
    have hknown := get?_of_mem_zip calls hentry
    have hknown' := get?_of_mem_zip calls hentry'
    constructor
    · rintro rfl
      have hinv := (inv_new calls).internAll hcalls calls (List.Subset.refl _)
      exact hinv.injective _ _ _ hknown hknown'
    · intro hname
      change call.fullUniqueName = call'.fullUniqueName at hname
      rw [hname, hknown'] at hknown
      exact (Option.some.inj hknown).symm
  · exact internAllDebug_eq (inv_new calls) hcalls calls (List.Subset.refl _)

namespace Witness

/-- The readable name is offered for two full names. -/
def calls : List InternCall :=
  [⟨"my$first$name", ["name", "first$name"]⟩, ⟨"my$second$name", ["name"]⟩, ⟨"my$first$name", []⟩]

theorem symbol_eq_iff_calls :
    (new.internAll calls).1.length = calls.length ∧
      (∀ entry ∈ calls.zip (new.internAll calls).1,
        ∀ entry' ∈ calls.zip (new.internAll calls).1,
          entry.2 = entry'.2 ↔ entry.1.fullUniqueName = entry'.1.fullUniqueName) ∧
      ((∀ call ∈ calls, "" ∉ call.readableNames) →
        new.internAllDebug calls = some (new.internAll calls).1) :=
  symbol_eq_iff calls (by unfold Admissible; decide)

end Witness

end NameInterner

end Prusti.Encoder

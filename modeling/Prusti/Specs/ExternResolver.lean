/-
The resolver of external specifications: which specification function is used for an
external function, and which ones are reported as duplicates.
-/
import Mathlib.Data.List.Induction
import Mathlib.Data.List.Nodup
import Prusti.Lib.HashMap

namespace Prusti.Specs

open Prusti.Lib

universe u v

variable {D : Type u} {S : Type v}

/-- The call that the visitor finds in a specification function: the function that is
called, the type that implements it, and where the call stands. -/
structure FoundSpec (D : Type u) (S : Type v) where
  defId : D
  implTy : Option D
  span : S

/-- A function that is added to the resolver; no call is found in a function that is not a
specification function. -/
structure ExternFn (D : Type u) (S : Type v) where
  currentDefId : D
  specFound : Option (FoundSpec D S)

/-- An error with the places it is reported at. -/
structure DuplicateError (S : Type v) where
  message : String
  spans : List S

structure ExternSpecResolver (D : Type u) (S : Type v) [BEq D] where
  /-- From real functions to the implementing type and the specification function. -/
  externFnMap : HashMap D (Option D × D)
  specDuplicates : HashMap D (List (D × S))

namespace ExternSpecResolver

variable [DecidableEq D]

def new : ExternSpecResolver D S := ⟨HashMap.empty, HashMap.empty⟩

def store (resolver : ExternSpecResolver D S) (defId : D) (implTy : Option D)
    (currentDefId : D) : ExternSpecResolver D S :=
  { resolver with externFnMap := resolver.externFnMap.insert defId (implTy, currentDefId) }

def addDuplicate (resolver : ExternSpecResolver D S) (defId currentDefId : D) (span : S) :
    ExternSpecResolver D S :=
  match resolver.specDuplicates.get? defId with
  | some dups =>
    { resolver with
      specDuplicates := resolver.specDuplicates.insert defId (dups ++ [(currentDefId, span)]) }
  | none =>
    { resolver with
      specDuplicates := resolver.specDuplicates.insert defId [(currentDefId, span)] }

def addExternFn (resolver : ExternSpecResolver D S) (fn : ExternFn D S) : ExternSpecResolver D S :=
  match fn.specFound with
  | none => resolver
  | some found =>
    match resolver.externFnMap.get? found.defId with
    | some (existingImplTy, _) =>
      if existingImplTy = found.implTy then
        resolver.addDuplicate found.defId fn.currentDefId found.span
      else resolver.store found.defId found.implTy fn.currentDefId
    | none => resolver.store found.defId found.implTy fn.currentDefId

/-- The errors, in the order in which the map is iterated. -/
def checkDuplicates (getItemName : D → String) (resolver : ExternSpecResolver D S) :
    List (DuplicateError S) :=
  resolver.specDuplicates.entries.map fun entry =>
    ⟨"duplicate specification for " ++ getItemName entry.1, entry.2.map (·.2)⟩

/-- Add the functions one after the other. -/
def resolve (fns : List (ExternFn D S)) : ExternSpecResolver D S := fns.foldl addExternFn new

end ExternSpecResolver

namespace ExternFn

variable [DecidableEq D]

/-- The specification functions for a target, in the order in which they are added. -/
def specsFor (fns : List (ExternFn D S)) (target : D) : List (D × FoundSpec D S) :=
  fns.filterMap fun fn => fn.specFound.bind fun found =>
    if found.defId = target then some (fn.currentDefId, found) else none

omit [DecidableEq D] in
/-- No two specifications of the same function are for different implementing types. -/
def OneImplTy (fns : List (ExternFn D S)) : Prop :=
  ∀ fn ∈ fns, ∀ fn' ∈ fns, ∀ found found', fn.specFound = some found →
    fn'.specFound = some found' → found.defId = found'.defId → found.implTy = found'.implTy

/-- Every specification function is the one that is used for its target, or is listed as a
duplicate and reported. -/
def EverySpecAccounted (getItemName : D → String) (fns : List (ExternFn D S)) : Prop :=
  ∀ fn ∈ fns, ∀ found, fn.specFound = some found →
    (∃ implTy, (ExternSpecResolver.resolve fns).externFnMap.get? found.defId =
      some (implTy, fn.currentDefId)) ∨
    ∃ dups, (ExternSpecResolver.resolve fns).specDuplicates.get? found.defId = some dups ∧
      (fn.currentDefId, found.span) ∈ dups ∧
      ∃ error ∈ (ExternSpecResolver.resolve fns).checkDuplicates getItemName,
        error.message = "duplicate specification for " ++ getItemName found.defId ∧
        found.span ∈ error.spans

/-- What is used for a target and an implementing type is the first specification function
that was added for them. -/
def FirstSpecStored (fns : List (ExternFn D S)) : Prop :=
  ∀ target implTy spec, (specsFor fns target).find? (fun spec => spec.2.implTy = implTy) =
    some spec →
    (ExternSpecResolver.resolve fns).externFnMap.get? target = some (implTy, spec.1)

theorem mem_specsFor {fns : List (ExternFn D S)} {target : D} {spec : D × FoundSpec D S} :
    spec ∈ specsFor fns target ↔ ∃ fn ∈ fns, fn.currentDefId = spec.1 ∧
      fn.specFound = some spec.2 ∧ spec.2.defId = target := by
  rw [specsFor, List.mem_filterMap]
  refine exists_congr fun fn => and_congr_right fun _ => ?_
  cases hfound : fn.specFound with
  | none => simp
  | some found =>
    rw [Option.bind_some]
    constructor
    · intro h
      split at h
      · next htarget =>
          cases h
          exact ⟨rfl, rfl, htarget⟩
      · cases h
    · rintro ⟨hid, hspec, htarget⟩
      cases hspec
      rw [if_pos htarget, hid]

theorem specsFor_concat (fns : List (ExternFn D S)) (fn : ExternFn D S) (target : D) :
    specsFor (fns ++ [fn]) target = specsFor fns target ++ specsFor [fn] target :=
  List.filterMap_append

theorem specsFor_singleton {fn : ExternFn D S} {found : FoundSpec D S}
    (hfound : fn.specFound = some found) (target : D) :
    specsFor [fn] target = if found.defId = target then [(fn.currentDefId, found)] else [] := by
  rw [specsFor, List.filterMap_cons, hfound, Option.bind_some]
  by_cases htarget : found.defId = target
  · simp [htarget]
  · simp [htarget]

end ExternFn

namespace ExternSpecResolver

open ExternFn

variable [DecidableEq D] {resolver : ExternSpecResolver D S} {fns : List (ExternFn D S)}

theorem resolve_concat (fns : List (ExternFn D S)) (fn : ExternFn D S) :
    resolve (fns ++ [fn]) = (resolve fns).addExternFn fn := by
  rw [resolve, List.foldl_append]
  rfl

theorem addDuplicate_get? (resolver : ExternSpecResolver D S) (defId currentDefId : D) (span : S)
    (target : D) :
    ((resolver.addDuplicate defId currentDefId span).specDuplicates.get? target).getD [] =
      (resolver.specDuplicates.get? target).getD [] ++
        if defId = target then [(currentDefId, span)] else [] := by
  rw [addDuplicate]
  by_cases htarget : defId = target
  · subst htarget
    split
    · next dups hdups => simp [HashMap.get?_insert, hdups]
    · next hdups => simp [HashMap.get?_insert, hdups]
  · split
    · simp [HashMap.get?_insert, htarget]
    · simp [HashMap.get?_insert, htarget]

theorem addDuplicate_externFnMap (resolver : ExternSpecResolver D S) (defId currentDefId : D)
    (span : S) :
    (resolver.addDuplicate defId currentDefId span).externFnMap = resolver.externFnMap := by
  rw [addDuplicate]
  split
  · rfl
  · rfl

/-- What is added is a duplicate of what is used, or is used from then on. -/
theorem addExternFn_cases (resolver : ExternSpecResolver D S) {fn : ExternFn D S}
    {found : FoundSpec D S} (hfound : fn.specFound = some found) :
    (∃ used, resolver.externFnMap.get? found.defId = some (found.implTy, used) ∧
      resolver.addExternFn fn = resolver.addDuplicate found.defId fn.currentDefId found.span) ∨
    (∀ used, resolver.externFnMap.get? found.defId ≠ some (found.implTy, used)) ∧
      resolver.addExternFn fn = resolver.store found.defId found.implTy fn.currentDefId := by
  simp only [addExternFn, hfound]
  cases hget : resolver.externFnMap.get? found.defId with
  | none => exact .inr ⟨fun used h => (by cases h), rfl⟩
  | some existing =>
    by_cases himpl : existing.1 = found.implTy
    · exact .inl ⟨existing.2, by rw [← himpl], if_pos himpl⟩
    · refine .inr ⟨fun used h => himpl ?_, if_neg himpl⟩
      cases h
      rfl

/-- The first specification of every target is used, and the others are duplicates. -/
structure KeepsFirst (resolver : ExternSpecResolver D S) (fns : List (ExternFn D S)) : Prop where
  used : ∀ target, resolver.externFnMap.get? target =
    (specsFor fns target).head?.map fun spec => (spec.2.implTy, spec.1)
  duplicates : ∀ target, (resolver.specDuplicates.get? target).getD [] =
    (specsFor fns target).tail.map fun spec => (spec.1, spec.2.span)

theorem KeepsFirst.addExternFn {fn : ExternFn D S} (h : resolver.KeepsFirst fns)
    (hone : OneImplTy (fns ++ [fn])) :
    (resolver.addExternFn fn).KeepsFirst (fns ++ [fn]) := by
  cases hfound : fn.specFound with
  | none =>
    have hnone : ∀ target, specsFor (fns ++ [fn]) target = specsFor fns target := by
      intro target
      rw [specsFor_concat]
      simp [specsFor, hfound]
    rw [ExternSpecResolver.addExternFn, hfound]
    exact ⟨fun target => by rw [hnone, h.used], fun target => by rw [hnone, h.duplicates]⟩
  | some found =>
    have hconcat : ∀ target, specsFor (fns ++ [fn]) target = specsFor fns target ++
        if found.defId = target then [(fn.currentDefId, found)] else [] := by
      intro target
      rw [specsFor_concat, specsFor_singleton hfound]
    rcases resolver.addExternFn_cases hfound with ⟨used, hused, hadd⟩ | ⟨hused, hadd⟩
    · -- something is used for the target already, and it comes first
      have hne : specsFor fns found.defId ≠ [] := by
        intro hnil
        rw [h.used, hnil] at hused
        cases hused
      rw [hadd]
      refine ⟨fun target => ?_, fun target => ?_⟩
      · rw [addDuplicate_externFnMap, h.used, hconcat]
        by_cases htarget : found.defId = target
        · subst htarget
          rw [List.head?_append_of_ne_nil _ hne]
        · rw [if_neg htarget, List.append_nil]
      · rw [addDuplicate_get?, h.duplicates, hconcat]
        by_cases htarget : found.defId = target
        · subst htarget
          rw [List.tail_append_of_ne_nil hne, if_pos rfl, if_pos rfl, List.map_append]
          rfl
        · rw [if_neg htarget, if_neg htarget, List.append_nil, List.append_nil]
    · -- nothing is used for the target, because its implementing type would be the same
      have hnil : specsFor fns found.defId = [] := by
        by_contra hne
        obtain ⟨spec, specs, hspecs⟩ := List.exists_cons_of_ne_nil hne
        obtain ⟨first, hfirst, -, hspec, htarget⟩ := mem_specsFor.mp
          (hspecs ▸ List.mem_cons_self : spec ∈ specsFor fns found.defId)
        have himpl := hone first (List.mem_append_left _ hfirst) fn
          (List.mem_append_right _ (List.mem_singleton_self fn)) spec.2 found hspec hfound htarget
        refine hused spec.1 ?_
        rw [h.used, hspecs, List.head?_cons, Option.map_some, himpl]
      rw [hadd]
      refine ⟨fun target => ?_, fun target => ?_⟩
      · rw [store, HashMap.get?_insert, hconcat]
        by_cases htarget : found.defId = target
        · subst htarget
          simp [hnil]
        · simp [htarget, h.used]
      · rw [store, h.duplicates, hconcat]
        by_cases htarget : found.defId = target
        · subst htarget
          simp [hnil]
        · simp [htarget]

/-- When the implementing types agree, the first specification of every target is used. -/
theorem keepsFirst_resolve (hone : OneImplTy fns) : (resolve fns).KeepsFirst fns := by
  induction fns using List.reverseRecOn with
  | nil => exact ⟨fun _ => rfl, fun _ => rfl⟩
  | append_singleton fns fn ih =>
    rw [resolve_concat]
    refine (ih ?_).addExternFn hone
    intro fn hfn fn' hfn'
    exact hone fn (List.mem_append_left _ hfn) fn' (List.mem_append_left _ hfn')

/-- The listed duplicates are reported. -/
theorem exists_error {getItemName : D → String} {target : D} {dups : List (D × S)}
    (hdups : resolver.specDuplicates.get? target = some dups) {dup : D × S} (hdup : dup ∈ dups) :
    ∃ error ∈ resolver.checkDuplicates getItemName,
      error.message = "duplicate specification for " ++ getItemName target ∧
      dup.2 ∈ error.spans := by
  obtain ⟨entry, hentry, hkey, rfl⟩ := exists_mem_of_lookup_eq_some hdups
  refine ⟨_, List.mem_map_of_mem hentry, ?_, List.mem_map_of_mem hdup⟩
  rw [eq_of_beq hkey]

theorem KeepsFirst.everySpecAccounted (h : (resolve fns).KeepsFirst fns)
    (getItemName : D → String) : EverySpecAccounted getItemName fns := by
  intro fn hfn found hfound
  have hmem : (fn.currentDefId, found) ∈ specsFor fns found.defId :=
    mem_specsFor.mpr ⟨fn, hfn, rfl, hfound, rfl⟩
  obtain ⟨first, others, hspecs⟩ := List.exists_cons_of_ne_nil (List.ne_nil_of_mem hmem)
  rw [hspecs, List.mem_cons] at hmem
  rcases hmem with rfl | hmem
  · left
    refine ⟨found.implTy, ?_⟩
    rw [h.used, hspecs]
    rfl
  · right
    have hget := h.duplicates found.defId
    rw [hspecs, List.tail_cons] at hget
    have hdup : (fn.currentDefId, found.span) ∈
        ((resolve fns).specDuplicates.get? found.defId).getD [] := by
      rw [hget]
      exact List.mem_map.mpr ⟨_, hmem, rfl⟩
    cases hdups : (resolve fns).specDuplicates.get? found.defId with
    | none =>
      rw [hdups] at hdup
      cases hdup
    | some dups =>
      rw [hdups] at hdup
      exact ⟨dups, rfl, hdup, exists_error hdups hdup⟩

theorem KeepsFirst.firstSpecStored (h : (resolve fns).KeepsFirst fns) (hone : OneImplTy fns) :
    FirstSpecStored fns := by
  intro target implTy spec hfind
  have hmem := List.mem_of_find?_eq_some hfind
  obtain ⟨first, others, hspecs⟩ := List.exists_cons_of_ne_nil (List.ne_nil_of_mem hmem)
  obtain ⟨fn, hfn, -, hspec, rfl⟩ := mem_specsFor.mp hmem
  obtain ⟨fn', hfn', -, hspec', htarget⟩ := mem_specsFor.mp
    (hspecs ▸ List.mem_cons_self : first ∈ specsFor fns spec.2.defId)
  have himpl : spec.2.implTy = implTy := by simpa using List.find?_some hfind
  have hfirst : first.2.implTy = implTy :=
    (hone fn' hfn' fn hfn _ _ hspec' hspec htarget).trans himpl
  rw [hspecs, List.find?_cons_of_pos (by simpa using hfirst)] at hfind
  cases hfind
  rw [h.used, hspecs, List.head?_cons, Option.map_some, hfirst]

/-- One specification per target is used, so that all are for the same implementing type. -/
theorem oneImplTy_of_firstSpecStored (h : FirstSpecStored fns) : OneImplTy fns := by
  have hused : ∀ fn ∈ fns, ∀ found, fn.specFound = some found →
      ∃ used, (resolve fns).externFnMap.get? found.defId = some (found.implTy, used) := by
    intro fn hfn found hfound
    cases hfind : (specsFor fns found.defId).find? fun spec => spec.2.implTy = found.implTy with
    | none =>
      have hnot := List.find?_eq_none.mp hfind (fn.currentDefId, found)
        (mem_specsFor.mpr ⟨fn, hfn, rfl, hfound, rfl⟩)
      simp at hnot
    | some spec => exact ⟨spec.1, h _ _ _ hfind⟩
  intro fn hfn fn' hfn' found found' hfound hfound' htarget
  obtain ⟨used, hget⟩ := hused fn hfn found hfound
  obtain ⟨used', hget'⟩ := hused fn' hfn' found' hfound'
  rw [htarget, hget'] at hget
  exact (Prod.mk.inj (Option.some.inj hget)).1.symm

/-- No specification is lost, and the first one is used, if and only if no function is
specified for several implementing types. -/
theorem specs_accounted_iff (getItemName : D → String) :
    EverySpecAccounted getItemName fns ∧ FirstSpecStored fns ↔ OneImplTy fns := by
  constructor
  · rintro ⟨-, hfirst⟩
    exact oneImplTy_of_firstSpecStored hfirst
  · intro hone
    have hkeeps := keepsFirst_resolve hone
    exact ⟨hkeeps.everySpecAccounted getItemName, hkeeps.firstSpecStored hone⟩

namespace Witness

/-- `clone` of the trait 0 is specified for the type 1 and then for the type 2. -/
def clones : List (ExternFn Nat Nat) := [⟨10, some ⟨0, some 1, 100⟩⟩, ⟨11, some ⟨0, some 2, 101⟩⟩]

theorem clones_first_lost (getItemName : Nat → String) :
    ¬ EverySpecAccounted getItemName clones := by
  intro h
  have hget : (resolve clones).externFnMap.get? 0 = some (some 2, 11) := rfl
  have hdups : (resolve clones).specDuplicates.get? 0 = none := rfl
  rcases h ⟨10, some ⟨0, some 1, 100⟩⟩ List.mem_cons_self ⟨0, some 1, 100⟩ rfl with
    ⟨implTy, hused⟩ | ⟨dups, hlisted, -⟩
  · rw [hget] at hused
    cases hused
  · rw [hdups] at hlisted
    cases hlisted

theorem clones_not_accounted :
    ¬ (EverySpecAccounted (fun _ => "std::clone::Clone::clone") clones ∧ FirstSpecStored clones) :=
  fun h => clones_first_lost _ h.1

end Witness

end ExternSpecResolver

end Prusti.Specs

/-
When the replacement of texts in the names of types, one type parameter after the other,
instantiates all type parameters at once.
-/
import Prusti.Encoder.LearnedSubsts
import Prusti.Vir.PatchedTypes

namespace Prusti.Encoder

open Prusti.Lib Prusti.Vir Prusti.Vir.Typaram

section Matches

/-- A word without a separator is all that is in front of the first separator. -/
theorem prefix_separator_iff {word word' rest rest' : List Char} (h : '$' ∉ word)
    (h' : '$' ∉ word') :
    word ++ '$' :: rest <+: word' ++ '$' :: rest' ↔ word = word' ∧ rest <+: rest' := by
  constructor
  · rintro ⟨tail, htail⟩
    have hseparable : ∀ left right : List Char, '$' ∉ right → Separable '$' left right := by
      intro left right hright hbegins
      exact hright (hbegins.subset (by simp))
    rw [List.append_assoc, List.cons_append] at htail
    obtain ⟨hword, hrest⟩ := append_separator_inj (hseparable _ _ h') (hseparable _ _ h) htail
    exact ⟨hword, tail, hrest⟩
  · rintro ⟨rfl, tail, rfl⟩
    exact ⟨tail, by simp⟩

theorem paramText_eq (name : ParamName) :
    paramText name = typaramMark ++ '$' :: (("_" ++ name.text).toList ++ '$' :: "__".toList) := by
  have hclose : typaramClose = '$' :: "__".toList := by decide
  change typaramOpen ++ (("_" ++ name.text).toList ++ typaramClose) = _
  rw [hclose, typaramOpen_eq, List.append_assoc]
  rfl

theorem separator_notMem_body (name : ParamName) : '$' ∉ ("_" ++ name.text).toList := by
  rw [String.toList_append, List.mem_append, not_or]
  exact ⟨by decide, name.plain⟩

theorem suffix_append_cases {tail front back : List Char} (h : tail <:+ front ++ back) :
    tail <:+ back ∨ ∃ front', front' <:+ front ∧ tail = front' ++ back := by
  obtain ⟨before, hbefore⟩ := h
  rcases List.append_eq_append_iff.mp hbefore with ⟨between, hfront, htail⟩ | ⟨between, _, hback⟩
  · exact .inr ⟨between, ⟨before, hfront.symm⟩, htail⟩
  · exact .inl ⟨between, hback.symm⟩

/-- What begins at the last separator of a parameter or later. -/
theorem not_prefix_close {name : ParamName} {tail rest : List Char}
    (hrest : ∀ char ∈ rest.head?, char = '$') (htail : tail <:+ '$' :: "__".toList) :
    ¬ paramText name <+: tail ++ rest := by
  intro hbegins
  rw [paramText_eq] at hbegins
  rcases List.suffix_cons_iff.mp htail with rfl | htail
  · exact absurd ((prefix_separator_iff (by decide) List.not_mem_nil).mp hbegins).1 (by decide)
  · have hplain : '$' ∉ tail := fun hmem => absurd (htail.subset hmem) (by decide)
    cases rest with
    | nil =>
      rw [List.append_nil] at hbegins
      exact hplain (hbegins.subset (by simp))
    | cons char rest =>
      cases hrest char rfl
      have hmark := ((prefix_separator_iff (by decide) hplain).mp hbegins).1
      have hlength := htail.length_le
      rw [← hmark] at hlength
      exact absurd hlength (by decide)

/-- A type parameter is found at the beginning of its text and nowhere else. -/
theorem paramText_prefix_iff {name name' : ParamName} (hname : name.text ≠ "_")
    {tail rest : List Char} (hrest : ∀ char ∈ rest.head?, char = '$')
    (htail : tail <:+ paramText name') :
    paramText name <+: tail ++ rest ↔ tail = paramText name' ∧ name = name' := by
  constructor
  · intro hbegins
    have hbody := separator_notMem_body name
    have hbody' := separator_notMem_body name'
    have hopen : '$' ∉ typaramMark := by decide
    rw [paramText_eq] at hbegins
    rw [paramText_eq] at htail
    rcases suffix_append_cases htail with htail | ⟨front, hfront, rfl⟩
    · exfalso
      rcases List.suffix_cons_iff.mp htail with rfl | htail
      · exact absurd ((prefix_separator_iff hopen List.not_mem_nil).mp hbegins).1 (by decide)
      · rcases suffix_append_cases htail with htail | ⟨inner, hinner, rfl⟩
        · rw [← paramText_eq] at hbegins
          exact not_prefix_close hrest htail hbegins
        · -- the mark ends the name of a parameter, and a parameter `_` would follow
          rw [List.append_assoc, List.cons_append] at hbegins
          obtain ⟨-, hbegins⟩ := (prefix_separator_iff hopen
            fun hmem => hbody' (hinner.subset hmem)).mp hbegins
          cases rest with
          | nil =>
            rw [List.append_nil] at hbegins
            exact absurd (hbegins.subset (List.mem_append_right _ List.mem_cons_self)) (by decide)
          | cons char rest =>
            cases hrest char rfl
            have hsame := ((prefix_separator_iff hbody (by decide)).mp hbegins).1
            exact hname (append_left_injective "_" (String.toList_inj.mp hsame))
    · have hfront' : '$' ∉ front := fun hmem => hopen (hfront.subset hmem)
      rw [List.append_assoc, List.cons_append] at hbegins
      obtain ⟨hmark, hbegins⟩ := (prefix_separator_iff hopen hfront').mp hbegins
      rw [List.append_assoc, List.cons_append] at hbegins
      have hsame := ((prefix_separator_iff hbody hbody').mp hbegins).1
      rw [paramText_eq, ← hmark]
      exact ⟨rfl, ParamName.text_injective (append_left_injective _ (String.toList_inj.mp hsame))⟩
  · rintro ⟨rfl, rfl⟩
    exact List.prefix_append _ _

end Matches

/-- A word does not contain the mark of type parameters. -/
def NamePart.Unmarked : NamePart → Prop
  | word text => ¬ typaramMark <:+: text.toList
  | param _ => True

/-- No item is spelled with the mark of type parameters. -/
def ItemNames.Unmarked {Item : Type} (items : ItemNames Item) : Prop :=
  ∀ item, ¬ typaramMark <:+: (encodeItemName items item).toList

theorem PartOfName.unmarked {Item : Type} {items : ItemNames Item} (hitems : items.Unmarked)
    {part : NamePart} (hpart : PartOfName items part) : part.Unmarked := by
  cases hpart with
  | word hword _ => exact fun h => hword (h.subset (by decide))
  | item did => exact hitems did
  | param => trivial

/-- The name of an enum variant, which is appended to the name of the enum. -/
structure VariantName where
  text : String
  unmarked : ¬ typaramMark <:+: ("_end_" ++ text).toList

/-- What the name of a predicate stands for. -/
inductive PredicateName (Item : Type) where
  | type (ty : Ty Item)
  | variant (did : Item) (substs : List (GenericArg Item)) (index : VariantName)

namespace PredicateName

variable {Item : Type} (items : ItemNames Item)

def ty : PredicateName Item → Ty Item
  | type ty => ty
  | variant did substs _ => .adt did substs

def variantText : PredicateName Item → String
  | type _ => ""
  | variant _ _ index => index.text

/-- The name, with that of the variant at the end. -/
def name (predicate : PredicateName Item) : String :=
  encodePredicateUse items predicate.ty ++ predicate.variantText

def subst (s : ParamName → Ty Item) : PredicateName Item → PredicateName Item
  | type ty => type (ty.subst s)
  | variant did substs index => variant did (Ty.substArgs s substs) index

theorem subst_subst (predicate : PredicateName Item) (s s' : ParamName → Ty Item) :
    (predicate.subst s).subst s' = predicate.subst fun name => (s name).subst s' := by
  cases predicate with
  | type ty => rw [subst, subst, subst, Ty.subst_subst]
  | variant did substs index => rw [subst, subst, subst, Ty.substArgs_substArgs]

def parts : PredicateName Item → List NamePart
  | type ty => ty.parts items
  | variant did substs index =>
    .word (encodeItemName items did) :: .word "_beg_" ::
      (Ty.partsArgs items true substs ++ [.word ("_end_" ++ index.text)])

section

variable (predicate : PredicateName Item)

theorem name_subst (s : ParamName → Ty Item) :
    (predicate.subst s).name items =
      encodePredicateUse items (predicate.ty.subst s) ++ predicate.variantText := by
  cases predicate <;> rfl

/-- The name of an instance is joined from the parts of the name. -/
theorem toList_name_subst (s : ParamName → Ty Item) :
    ((predicate.subst s).name items).toList =
      joined '$' ((predicate.parts items).map (NamePart.instanceText items s)) := by
  rw [name_subst, String.toList_append, toList_encodePredicateUse_subst]
  cases predicate with
  | type ty => exact List.append_nil _
  | variant did substs index =>
    simp only [ty, variantText, Ty.parts, parts, List.map_cons, List.map_append, List.map_nil,
      ← List.cons_append]
    rw [← joined_concat_append]
    simp [NamePart.instanceText]

theorem name_subst_param : (predicate.subst (.param 0)).name items = predicate.name items := by
  rw [name_subst, encodePredicateUse_subst_param, name]

theorem toList_name :
    (predicate.name items).toList =
      joined '$' ((predicate.parts items).map fun part => part.token.text) := by
  rw [← name_subst_param, toList_name_subst]
  congr 1
  apply List.map_congr_left
  intro part _
  cases part with
  | word text => rfl
  | param name => exact toList_encodePredicateUse_param items 0 name

/-- Two instances have the same name just when the replacements of the parameters have. -/
theorem name_subst_eq_iff (s s' : ParamName → Ty Item) :
    (predicate.subst s).name items = (predicate.subst s').name items ↔
      ∀ name ∈ predicate.ty.params items,
        encodePredicateUse items (s name) = encodePredicateUse items (s' name) := by
  rw [name_subst, name_subst, (append_right_injective _).eq_iff, encodePredicateUse_subst_eq_iff]

end

theorem unmarked_parts (hitems : items.Unmarked) (predicate : PredicateName Item) :
    ∀ part ∈ predicate.parts items, part.Unmarked := by
  cases predicate with
  | type ty => exact fun part hpart => (partOfName_parts items ty part hpart).unmarked hitems
  | variant did substs index =>
    rw [parts, List.forall_mem_cons, List.forall_mem_cons, List.forall_mem_append,
      List.forall_mem_singleton]
    have hbegin : ¬ typaramMark <:+: "_beg_".toList :=
      fun h => absurd (h.subset (by decide : 'T' ∈ typaramMark)) (by decide)
    exact ⟨hitems did, hbegin,
      fun part hpart => (partOfName_partsArgs items true substs part hpart).unmarked hitems,
      index.unmarked⟩

end PredicateName

/-- Type parameters and the types that replace them. -/
abbrev Bindings (Item : Type) := List (ParamName × Ty Item)

namespace Bindings

variable {Item : Type} (items : ItemNames Item)

/-- The names of the parameters and of the types, as they are used to instantiate generic
pure functions. -/
def typeSubstitutionStrings (map : Bindings Item) : List (String × String) :=
  map.map fun entry =>
    (encodePredicateUse items (.param 0 entry.1), encodePredicateUse items entry.2)

/-- What replaces a parameter. -/
def image (map : Bindings Item) (name : ParamName) : Ty Item :=
  ((map.find? fun entry => entry.1 == name).map Prod.snd).getD (.param 0 name)

/-- The texts that are replaced, and what replaces them. -/
def texts (map : Bindings Item) : List (List Char × List Char) :=
  (map.typeSubstitutionStrings items).map fun entry => (entry.1.toList, entry.2.toList)

/-- No parameter is called `_`, which is no identifier. -/
def Named (map : Bindings Item) : Prop := ∀ entry ∈ map, entry.1.text ≠ "_"

theorem texts_eq (map : Bindings Item) :
    map.texts items =
      map.map fun entry => (paramText entry.1, (encodePredicateUse items entry.2).toList) := by
  rw [texts, typeSubstitutionStrings, List.map_map]
  exact List.map_congr_left fun entry _ => by
    rw [Function.comp_apply, toList_encodePredicateUse_param]

/-- No parameter begins where the text does not look like the beginning of one. -/
theorem findPattern_eq_none {map : Bindings Item} {text : List Char}
    (h : ∀ entry ∈ map, ¬ paramText entry.1 <+: text) :
    findPattern (map.texts items) text = none := by
  rw [texts_eq, findPattern, Option.map_eq_none_iff, List.find?_eq_none]
  intro entry hentry
  obtain ⟨original, horiginal, rfl⟩ := List.mem_map.mp hentry
  rw [List.isPrefixOf_iff_prefix]
  exact h original horiginal

/-- Where a parameter begins, its replacement is found. -/
theorem findPattern_param {map : Bindings Item} (hnamed : map.Named) (name : ParamName)
    {rest : List Char} (hrest : ∀ char ∈ rest.head?, char = '$') :
    findPattern (map.texts items) (paramText name ++ rest) =
      (map.find? fun entry => entry.1 == name).map fun entry =>
        ((paramText name).length, (encodePredicateUse items entry.2).toList) := by
  rw [texts_eq, findPattern]
  induction map with
  | nil => rfl
  | cons entry map ih =>
    have hentry := paramText_prefix_iff (hnamed entry List.mem_cons_self) hrest
      (List.suffix_refl (paramText name))
    rw [List.map_cons, List.find?_cons, List.find?_cons]
    by_cases hname : entry.1 = name
    · have hfound := List.isPrefixOf_iff_prefix.mpr (hentry.mpr ⟨rfl, hname⟩)
      rw [hfound, beq_iff_eq.mpr hname, ← hname]
      rfl
    · have hmissed := mt (fun h => (hentry.mp (List.isPrefixOf_iff_prefix.mp h)).2) hname
      rw [Bool.not_eq_true] at hmissed
      rw [hmissed, beq_eq_false_iff_ne.mpr hname]
      exact ih fun other hother => hnamed other (List.mem_cons_of_mem entry hother)

/-- A separator stays as it is. -/
theorem scan_separator (map : Bindings Item) (rest : List Char) :
    scan (findPattern (map.texts items)) 0 ('$' :: rest) =
      '$' :: scan (findPattern (map.texts items)) 0 rest := by
  have hnone : findPattern (map.texts items) ('$' :: rest) = none := by
    apply findPattern_eq_none
    intro entry _ hbegins
    rw [paramText_eq] at hbegins
    have hmark := ((prefix_separator_iff (by decide) List.not_mem_nil).mp hbegins).1
    exact absurd hmark (by decide)
  rw [scan, hnone]

/-- No parameter begins in a word without the mark. -/
theorem scan_word (map : Bindings Item) {text rest : List Char} (hmark : ¬ typaramMark <:+: text)
    (hrest : ∀ char ∈ rest.head?, char = '$') :
    scan (findPattern (map.texts items)) 0 (text ++ rest) =
      text ++ scan (findPattern (map.texts items)) 0 rest := by
  apply scan_of_none
  intro tail _ htail
  apply findPattern_eq_none
  intro entry _ hbegins
  have hopen : typaramOpen <+: paramText entry.1 := List.prefix_append _ _
  exact typaramOpen_not_prefix (fun h => hmark (h.trans htail.isInfix)) hrest (hopen.trans hbegins)

/-- One part of a name. -/
theorem scan_part {map : Bindings Item} (hnamed : map.Named) {part : NamePart}
    (hpart : part.Unmarked) {rest : List Char} (hrest : ∀ char ∈ rest.head?, char = '$') :
    scan (findPattern (map.texts items)) 0 (part.token.text ++ rest) =
      part.instanceText items map.image ++ scan (findPattern (map.texts items)) 0 rest := by
  cases part with
  | word text => exact scan_word items map hpart hrest
  | param name =>
    have hfind := findPattern_param items hnamed name hrest
    cases hentry : map.find? fun entry => entry.1 == name with
    | some entry =>
      rw [hentry] at hfind
      have hne : paramText name ≠ [] := by
        rw [paramText_eq]
        exact List.append_ne_nil_of_left_ne_nil (by decide) _
      have himage : map.image name = entry.2 := by
        rw [image, hentry]
        rfl
      rw [NamePart.instanceText, himage]
      exact scan_of_some hne hfind
    | none =>
      rw [List.find?_eq_none] at hentry
      have himage : map.image name = .param 0 name := by
        rw [image, List.find?_eq_none.mpr hentry]
        rfl
      rw [NamePart.instanceText, himage, toList_encodePredicateUse_param]
      apply scan_of_none
      intro tail _ htail
      apply findPattern_eq_none
      intro entry hmem hbegins
      have hsame := ((paramText_prefix_iff (hnamed entry hmem) hrest htail).mp hbegins).2
      exact hentry entry hmem (beq_iff_eq.mpr hsame)

/-- All parameters of a name are replaced in one pass. -/
theorem replaceTogether_joined {map : Bindings Item} (hnamed : map.Named)
    {parts : List NamePart} (hparts : ∀ part ∈ parts, part.Unmarked) :
    replaceTogether (map.texts items) (joined '$' (parts.map fun part => part.token.text)) =
      joined '$' (parts.map (NamePart.instanceText items map.image)) := by
  rw [replaceTogether]
  induction parts with
  | nil => rfl
  | cons part parts ih =>
    rw [List.forall_mem_cons] at hparts
    replace ih := ih hparts.2
    cases parts with
    | nil =>
      have hpart := @scan_part _ items map hnamed part hparts.1 [] (by simp)
      simpa [joined, scan] using hpart
    | cons next parts =>
      rw [List.map_cons] at ih
      rw [List.map_cons, List.map_cons, joined_cons_cons,
        scan_part items hnamed hparts.1 (by simp), scan_separator, ih]
      rfl

/-- All parameters of a name are replaced in one pass. -/
theorem replaceTogether_name {map : Bindings Item} (hitems : items.Unmarked)
    (hnamed : map.Named) (predicate : PredicateName Item) :
    replaceTogether (map.texts items) (predicate.name items).toList =
      ((predicate.subst map.image).name items).toList := by
  rw [PredicateName.toList_name, PredicateName.toList_name_subst]
  exact replaceTogether_joined items hnamed (predicate.unmarked_parts items hitems)

/-- What replaces a parameter when the parameters are replaced one after the other. -/
def inTurn : Bindings Item → ParamName → Ty Item
  | [], name => .param 0 name
  | entry :: rest, name => (image [entry] name).subst (inTurn rest)

/-- The patcher replaces the parameters of a name one after the other. -/
theorem patchName_name {order : Bindings Item} (hitems : items.Unmarked)
    (hnamed : order.Named) (predicate : PredicateName Item) :
    patchName (order.typeSubstitutionStrings items) (predicate.name items) =
      (predicate.subst order.inTurn).name items := by
  induction order generalizing predicate with
  | nil => exact (predicate.name_subst_param items).symm
  | cons entry order ih =>
    have hentry : Named [entry] := fun other hother =>
      hnamed other (List.mem_cons.mpr (.inl (List.mem_singleton.mp hother)))
    have hfirst : String.ofList (replace (encodePredicateUse items (.param 0 entry.1)).toList
        (encodePredicateUse items entry.2).toList (predicate.name items).toList) =
        (predicate.subst (image [entry])).name items := by
      apply String.toList_inj.mp
      rw [String.toList_ofList]
      exact replaceTogether_name items hitems hentry predicate
    have hrest : Named order := fun other hother => hnamed other (List.mem_cons_of_mem _ hother)
    rw [typeSubstitutionStrings, List.map_cons, patchName_cons, hfirst,
      ← typeSubstitutionStrings, ih hrest, PredicateName.subst_subst]
    rfl

section InTurn

variable {items}

variable {name : ParamName}

theorem inTurn_cons_self (name : ParamName) (ty : Ty Item) (rest : Bindings Item) :
    inTurn ((name, ty) :: rest) name = ty.subst rest.inTurn := by
  rw [inTurn, image, List.find?_cons, beq_self_eq_true]
  rfl

theorem inTurn_append {front : Bindings Item} (h : name ∉ front.map Prod.fst)
    (back : Bindings Item) :
    inTurn (front ++ back) name = back.inTurn name := by
  induction front with
  | nil => rfl
  | cons entry front ih =>
    rw [List.map_cons, List.mem_cons, not_or] at h
    have himage : image [entry] name = .param 0 name := by
      rw [image, List.find?_cons, beq_eq_false_iff_ne.mpr (Ne.symm h.1)]
      rfl
    rw [List.cons_append, inTurn, himage]
    exact ih h.2

theorem inTurn_of_notMem {order : Bindings Item} (h : name ∉ order.map Prod.fst) :
    order.inTurn name = .param 0 name := by
  have happend := inTurn_append h []
  rwa [List.append_nil] at happend

theorem image_of_notMem {map : Bindings Item} (h : name ∉ map.map Prod.fst) :
    map.image name = .param 0 name := by
  have hnone : (map.find? fun entry => entry.1 == name) = none := by
    rw [List.find?_eq_none]
    intro entry hentry hname
    exact h (List.mem_map.mpr ⟨entry, hentry, beq_iff_eq.mp hname⟩)
  rw [image, hnone]
  rfl

theorem image_of_mem {map : Bindings Item} (hnodup : (map.map Prod.fst).Nodup) {ty : Ty Item}
    (h : (name, ty) ∈ map) : map.image name = ty := by
  obtain ⟨front, back, rfl⟩ := List.append_of_mem h
  have hfront : (front.find? fun entry => entry.1 == name) = none := by
    rw [List.find?_eq_none]
    intro entry hentry hname
    rw [List.map_append, List.map_cons, List.nodup_append] at hnodup
    have hkey : name ∈ front.map Prod.fst := List.mem_map.mpr ⟨entry, hentry, beq_iff_eq.mp hname⟩
    exact hnodup.2.2 name hkey name List.mem_cons_self rfl
  rw [image, List.find?_append, hfront, Option.none_or, List.find?_cons, beq_self_eq_true]
  rfl

theorem exists_mem_of_key {map : Bindings Item} (h : name ∈ map.map Prod.fst) :
    ∃ ty, (name, ty) ∈ map := by
  obtain ⟨⟨_, ty⟩, hentry, rfl⟩ := List.mem_map.mp h
  exact ⟨ty, hentry⟩

/-- What replaces a parameter that is replaced in turn. -/
theorem inTurn_of_mem {order : Bindings Item} (hnodup : (order.map Prod.fst).Nodup) {ty : Ty Item}
    (h : (name, ty) ∈ order) :
    ∃ after : Bindings Item, after ⊆ order ∧ name ∉ after.map Prod.fst ∧
      (after.map Prod.fst).Nodup ∧ order.inTurn name = ty.subst after.inTurn := by
  obtain ⟨front, back, rfl⟩ := List.append_of_mem h
  rw [List.map_append, List.map_cons, List.nodup_append, List.nodup_cons] at hnodup
  obtain ⟨-, ⟨hback, hnodup⟩, hdisjoint⟩ := hnodup
  have hfront : name ∉ front.map Prod.fst := fun hkey =>
    hdisjoint name hkey name List.mem_cons_self rfl
  refine ⟨back, fun entry hentry => ?_, hback, hnodup, ?_⟩
  · exact List.mem_append_right front (List.mem_cons_of_mem _ hentry)
  · rw [inTurn_append hfront, inTurn_cons_self]

end InTurn

end Bindings

/-- A map from type parameters to types, which a hash map goes through in any order. -/
structure TypeMap (Item : Type) where
  bindings : Bindings Item
  nodup : (bindings.map Prod.fst).Nodup
  named : bindings.Named

namespace TypeMap

open Bindings

variable {Item : Type} (items : ItemNames Item) (map : TypeMap Item)

/-- The map leaves a parameter as it is. -/
def Keeps (name : ParamName) : Prop :=
  encodePredicateUse items (map.bindings.image name) = encodePredicateUse items (.param 0 name)

/-- What replaces the parameter contains no other parameter that the map changes. -/
def PatchedOnce (name : ParamName) : Prop :=
  ∀ ty, (name, ty) ∈ map.bindings → ∀ other ∈ ty.params items, other ≠ name → map.Keeps items other

variable {items map}

variable {name : ParamName} {order : Bindings Item}

/-- A type that is spelled like a parameter is a parameter. -/
theorem subst_of_keeps {ty : Ty Item}
    (h : encodePredicateUse items ty = encodePredicateUse items (.param 0 name))
    (s : ParamName → Ty Item) : ty.subst s = s name := by
  rw [encodePredicateUse_eq_iff] at h
  cases ty with
  | param index other =>
    rw [Ty.forget, Ty.forget] at h
    injection h with _ hname
    rw [Ty.subst, hname]
  | adt did substs => cases substs <;> cases h
  | _ => cases h

theorem inTurn_of_keeps (hnodup : (order.map Prod.fst).Nodup) (hsubset : order ⊆ map.bindings)
    (h : map.Keeps items name) :
    order.inTurn name = .param 0 name := by
  by_cases hname : name ∈ order.map Prod.fst
  · obtain ⟨ty, hentry⟩ := exists_mem_of_key hname
    obtain ⟨after, -, hafter, -, heq⟩ := inTurn_of_mem hnodup hentry
    rw [Keeps, image_of_mem map.nodup (hsubset hentry)] at h
    rw [heq, subst_of_keeps h, inTurn_of_notMem hafter]
  · exact inTurn_of_notMem hname

/-- A parameter whose replacement is not changed any more is replaced the same way in every
order. -/
theorem inTurn_of_patchedOnce (horder : order.Perm map.bindings) (h : map.PatchedOnce items name) :
    encodePredicateUse items (order.inTurn name) =
      encodePredicateUse items (map.bindings.image name) := by
  have hnodup : (order.map Prod.fst).Nodup := (horder.map Prod.fst).nodup_iff.mpr map.nodup
  by_cases hname : name ∈ map.bindings.map Prod.fst
  · obtain ⟨ty, hentry⟩ := exists_mem_of_key hname
    obtain ⟨after, hsubset, hafter, hnodup', heq⟩ :=
      inTurn_of_mem hnodup (horder.mem_iff.mpr hentry)
    rw [heq, image_of_mem map.nodup hentry, ← encodePredicateUse_subst_param items ty,
      encodePredicateUse_subst_eq_iff]
    intro other hother
    by_cases hself : other = name
    · subst hself
      rw [inTurn_of_notMem hafter]
    · rw [inTurn_of_keeps hnodup' (fun entry hmem => horder.subset (hsubset hmem))
        (h ty hentry other hother hself)]
  · rw [inTurn_of_notMem (mt (horder.map Prod.fst).mem_iff.mp hname), image_of_notMem hname]

/-- Two entries can be the last ones. -/
theorem exists_perm_last {α : Type} {elems : List α} {first second : α} (hne : first ≠ second)
    (hfirst : first ∈ elems) (hsecond : second ∈ elems) :
    ∃ front, (front ++ [first, second]).Perm elems := by
  obtain ⟨before, after, rfl⟩ := List.append_of_mem hfirst
  have hrest : second ∈ before ++ after := by
    simp only [List.mem_append, List.mem_cons] at hsecond ⊢
    rcases hsecond with h | h | h
    · exact .inl h
    · exact absurd h.symm hne
    · exact .inr h
  obtain ⟨before', after', heq⟩ := List.append_of_mem hrest
  refine ⟨before' ++ after', ?_⟩
  have hperm : (before ++ first :: after).Perm (first :: second :: (before' ++ after')) := by
    refine List.perm_middle.trans (List.Perm.cons _ ?_)
    rw [heq]
    exact List.perm_middle
  exact List.perm_append_comm.trans hperm.symm

/-- A parameter is replaced the same way in every order exactly when its replacement is not
changed any more. -/
theorem forall_inTurn_iff (map : TypeMap Item) (name : ParamName) :
    (∀ order : Bindings Item, order.Perm map.bindings →
      encodePredicateUse items (order.inTurn name) =
        encodePredicateUse items (map.bindings.image name)) ↔ map.PatchedOnce items name := by
  constructor
  · intro h ty hentry other hother hne
    by_cases hkey : other ∈ map.bindings.map Prod.fst
    · obtain ⟨image, hentry'⟩ := exists_mem_of_key hkey
      have hdiffer : (name, ty) ≠ (other, image) := fun heq => hne (congrArg Prod.fst heq).symm
      obtain ⟨front, hperm⟩ := exists_perm_last hdiffer hentry hentry'
      have hnodup := (hperm.map Prod.fst).nodup_iff.mpr map.nodup
      rw [List.map_append, List.nodup_append] at hnodup
      have hfront : name ∉ front.map Prod.fst := fun hmem =>
        hnodup.2.2 name hmem name List.mem_cons_self rfl
      have horder := h _ hperm
      rw [inTurn_append hfront, inTurn_cons_self, image_of_mem map.nodup hentry,
        ← encodePredicateUse_subst_param items ty, encodePredicateUse_subst_eq_iff] at horder
      have hother' := horder other hother
      rw [inTurn_cons_self] at hother'
      rw [Keeps, image_of_mem map.nodup hentry', ← encodePredicateUse_subst_param items image]
      exact hother'
    · rw [Keeps, image_of_notMem hkey]
  · exact fun h order horder => inTurn_of_patchedOnce horder h

theorem named_of_perm (horder : order.Perm map.bindings) : order.Named :=
  fun entry hentry => map.named entry (horder.mem_iff.mp hentry)

/-- The name of a type is patched at once in every order exactly when no parameter of the
type is patched again. -/
theorem forall_patchName_iff (hitems : items.Unmarked) (map : TypeMap Item)
    (predicate : PredicateName Item) :
    (∀ order : Bindings Item, order.Perm map.bindings →
      patchName (order.typeSubstitutionStrings items) (predicate.name items) =
        replaceNames (map.bindings.typeSubstitutionStrings items) (predicate.name items)) ↔
      ∀ name ∈ predicate.ty.params items, map.PatchedOnce items name := by
  have hreplace : replaceNames (map.bindings.typeSubstitutionStrings items)
      (predicate.name items) = (predicate.subst map.bindings.image).name items := by
    apply String.toList_inj.mp
    rw [replaceNames, String.toList_ofList]
    exact replaceTogether_name items hitems map.named predicate
  have horder : ∀ order : Bindings Item, order.Perm map.bindings →
      (patchName (order.typeSubstitutionStrings items) (predicate.name items) =
        (predicate.subst map.bindings.image).name items ↔
      ∀ name ∈ predicate.ty.params items, encodePredicateUse items (order.inTurn name) =
        encodePredicateUse items (map.bindings.image name)) := by
    intro order horder
    rw [patchName_name items hitems (named_of_perm horder), PredicateName.name_subst_eq_iff]
  rw [hreplace, forall₂_congr horder]
  constructor
  · intro h name hname
    exact (forall_inTurn_iff map name).mp fun order horder => h order horder name hname
  · intro h order horder name hname
    exact (forall_inTurn_iff map name).mpr (h name hname) order horder

variable (items map)

/-- Whatever the order of the map, patching an expression replaces all parameters in the
names of its types at once. -/
def PatchesAtOnce (expr : Expr) : Prop :=
  ∀ order : Bindings Item, order.Perm map.bindings →
    expr.patchTypes (order.typeSubstitutionStrings items) =
      expr.mapNames (replaceNames (map.bindings.typeSubstitutionStrings items))

variable {items map}

/-- An expression is patched at once exactly when no parameter in a name that the patcher
visits is patched again, and no other name needs a change. -/
theorem patchesAtOnce_iff (hitems : items.Unmarked) (map : TypeMap Item) {expr : Expr}
    (hnames : ∀ name ∈ expr.patchedNames,
      ∃ predicate : PredicateName Item, predicate.name items = name) :
    map.PatchesAtOnce items expr ↔
      (∀ predicate : PredicateName Item, predicate.name items ∈ expr.patchedNames →
        ∀ name ∈ predicate.ty.params items, map.PatchedOnce items name) ∧
      ∀ name ∈ expr.missedNames,
        replaceNames (map.bindings.typeSubstitutionStrings items) name = name := by
  simp only [PatchesAtOnce, Expr.patchTypes_eq_mapNames_iff]
  constructor
  · intro h
    refine ⟨fun predicate hmem => ?_, fun name hname => ?_⟩
    · exact (forall_patchName_iff hitems map predicate).mp fun order horder =>
        (h order horder).1 _ hmem
    · exact ((h map.bindings (.refl _)).2 name hname).symm
  · rintro ⟨hpatched, hmissed⟩ order horder
    refine ⟨fun name hname => ?_, fun name hname => (hmissed name hname).symm⟩
    obtain ⟨predicate, rfl⟩ := hnames name hname
    exact (forall_patchName_iff hitems map predicate).mpr (hpatched predicate hname) order horder

end TypeMap

namespace Witness

open Bindings

theorem twoItems_unmarked : twoItems.Unmarked := twoItems_plain.mark

/-- A function that calls itself with its parameters swapped. -/
def swapped : TypeMap Bool where
  bindings := [(tyA, .param 0 tyB), (tyB, .param 0 tyA)]
  nodup := by decide
  named := by
    unfold Named
    decide

def varOf (ty : Ty Bool) : Expr :=
  .localVar ⟨"x", .typedRef (encodePredicateUse twoItems ty)⟩ .default

theorem swapped_not_patchesAtOnce : ¬ swapped.PatchesAtOnce twoItems (varOf (.param 0 tyA)) := by
  intro h
  have horder := (Expr.patchTypes_eq_mapNames_iff _).mp (h swapped.bindings (.refl _))
  exact absurd (horder.1 _ List.mem_cons_self) (by decide)

/-- The parameter is replaced by the other one at once only if the other one stays. -/
theorem swapped_patchesAtOnce_iff :
    swapped.PatchesAtOnce twoItems (varOf (.param 0 tyA)) ↔
      (∀ predicate : PredicateName Bool,
        predicate.name twoItems ∈ (varOf (.param 0 tyA)).patchedNames →
          ∀ name ∈ predicate.ty.params twoItems, swapped.PatchedOnce twoItems name) ∧
      ∀ name ∈ (varOf (.param 0 tyA)).missedNames,
        replaceNames (swapped.bindings.typeSubstitutionStrings twoItems) name = name := by
  apply TypeMap.patchesAtOnce_iff twoItems_unmarked swapped
  intro name hname
  rw [List.mem_singleton.mp hname]
  exact ⟨.type (.param 0 tyA), by decide⟩

end Witness

end Prusti.Encoder

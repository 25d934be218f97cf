/-
When the substitution that is learned from the name of a generic type and of
its instance instantiates names as types are instantiated.
-/
import Prusti.Encoder.TypeSubsts
import Mathlib.Data.List.Nodup

namespace Prusti.Encoder

open Prusti.Lib Prusti.Vir.Typaram

/-- The letters with a meaning in a regular expression, which are not escaped
in names. -/
def patternLetters : List Char :=
  ['\\', '.', '+', '*', '?', '(', ')', '|', '[', ']', '\x7b', '\x7d', '^', '\n']

def ParamName.Plain (name : ParamName) : Prop :=
  ∀ letter ∈ name.text.toList, letter ∉ patternLetters

instance : DecidablePred ParamName.Plain := fun name =>
  List.decidableBAll (fun letter => letter ∉ patternLetters) name.text.toList

instance : DecidableEq ParamName := fun _ _ =>
  decidable_of_iff _ ParamName.text_injective.eq_iff

/-- Item names are spelled without pattern letters and without the mark of type
parameters. -/
structure ItemNames.Plain {Item : Type} (items : ItemNames Item) : Prop where
  mark : ∀ item, ¬ typaramMark <:+: (encodeItemName items item).toList
  letters : ∀ item, ∀ letter ∈ (encodeItemName items item).toList, letter ∉ patternLetters

theorem newline_mem_patternLetters : '\n' ∈ patternLetters := by decide

section Plain

variable {Item : Type} (items : ItemNames Item)

/-- What a part of a name is. -/
inductive PartOfName : NamePart → Prop where
  | word {text : String} (hmark : 'T' ∉ text.toList) (hline : '\n' ∉ text.toList) :
      PartOfName (.word text)
  | item (did : Item) : PartOfName (.word (encodeItemName items did))
  | param (name : ParamName) : PartOfName (.param name)

theorem partOfName_prim (ty : PrimitiveTy) : PartOfName items (.word ty.encodePredicateUse) := by
  have hall : ∀ key ∈ Keyword.all, key ≠ .param →
      'T' ∉ key.word.toList ∧ '\n' ∉ key.word.toList := by
    decide
  have hprim := hall (.prim ty) (Keyword.mem_all _) (by simp)
  exact .word hprim.1 hprim.2

theorem partOfName_number {first : String} (number : Nat)
    (hmark : 'T' ∉ first.toList) (hline : '\n' ∉ first.toList) :
    PartOfName items (.word (first ++ toString number)) := by
  have hdigits : ∀ letter ∈ (toString number).toList, letter.isDigit = true := by
    intro letter hletter
    rw [toList_toString] at hletter
    exact Nat.isDigit_of_mem_toDigits (by decide) (by decide) hletter
  apply PartOfName.word <;> rw [String.toList_append, List.mem_append, not_or]
  · exact ⟨hmark, fun hmem => absurd (hdigits _ hmem) (by decide)⟩
  · exact ⟨hline, fun hmem => absurd (hdigits _ hmem) (by decide)⟩

mutual

theorem partOfName_parts (ty : Ty Item) : ∀ part ∈ ty.parts items, PartOfName items part := by
  match ty with
  | .prim ty =>
    rw [Ty.parts, List.forall_mem_singleton]
    exact partOfName_prim items ty
  | .never | .str =>
    rw [Ty.parts, List.forall_mem_singleton]
    exact .word (by decide) (by decide)
  | .param _ name =>
    rw [Ty.parts, List.forall_mem_singleton]
    exact .param name
  | .rawPtr ty _ | .ref _ ty _ | .slice ty =>
    rw [Ty.parts, List.forall_mem_cons]
    exact ⟨.word (by decide) (by decide), partOfName_parts ty⟩
  | .array ty len =>
    rw [Ty.parts, List.forall_mem_cons, List.forall_mem_cons, ← @String.empty_append (toString len)]
    exact ⟨.word (by decide) (by decide),
      partOfName_number items len (by decide) (by decide), partOfName_parts ty⟩
  | .tuple [] =>
    rw [Ty.parts, List.forall_mem_cons, List.forall_mem_singleton]
    exact ⟨.word (by decide) (by decide), .word (by decide) (by decide)⟩
  | .tuple (first :: rest) =>
    rw [Ty.parts, List.forall_mem_cons, List.forall_mem_append]
    exact ⟨partOfName_number items _ (by decide) (by decide),
      partOfName_parts first, partOfName_partsEach rest⟩
  | .adt did substs =>
    rw [Ty.parts, List.forall_mem_cons, List.forall_mem_cons, List.forall_mem_append,
      List.forall_mem_singleton]
    exact ⟨.item did, .word (by decide) (by decide),
      partOfName_partsArgs true substs, .word (by decide) (by decide)⟩

theorem partOfName_partsEach (elems : List (Ty Item)) :
    ∀ part ∈ Ty.partsEach items elems, PartOfName items part := by
  match elems with
  | [] => exact List.forall_mem_nil _
  | ty :: rest =>
    rw [Ty.partsEach, List.forall_mem_append]
    exact ⟨partOfName_parts ty, partOfName_partsEach rest⟩

theorem partOfName_partsArgs (first : Bool) (substs : List (GenericArg Item)) :
    ∀ part ∈ Ty.partsArgs items first substs, PartOfName items part := by
  match substs with
  | [] => exact List.forall_mem_nil _
  | arg :: rest =>
    rw [Ty.partsArgs, List.forall_mem_append, List.forall_mem_append]
    refine ⟨?_, partOfName_partsArg arg, partOfName_partsArgs false rest⟩
    cases first with
    | true => exact List.forall_mem_nil _
    | false => exact List.forall_mem_singleton.mpr (.word (by decide) (by decide))

theorem partOfName_partsArg (arg : GenericArg Item) :
    ∀ part ∈ GenericArg.parts items arg, PartOfName items part := by
  match arg with
  | .type ty => exact partOfName_parts ty
  | .lifetime _ | .const _ => exact List.forall_mem_nil _

end

variable {items}

theorem ParamName.Plain.newline {name : ParamName} (h : name.Plain) :
    '\n' ∉ ("_" ++ name.text).toList := by
  rw [String.toList_append, List.mem_append, not_or]
  exact ⟨by decide, fun hmem => h _ hmem newline_mem_patternLetters⟩

/-- The words of a name do not look like type parameters. -/
theorem PartOfName.plain (hitems : items.Plain) {part : NamePart} (hpart : PartOfName items part)
    (hparam : ∀ name, part = .param name → name.Plain) : part.token.Plain := by
  cases hpart with
  | word hmark hline =>
    refine .word (fun hinside => hmark (hinside.subset ?_)) hline
    decide
  | item did =>
    exact .word (hitems.mark did) fun hmem => hitems.letters did _ hmem newline_mem_patternLetters
  | param name =>
    refine .param ?_ (hparam name rfl).newline
    rw [String.toList_append, List.mem_append, not_or]
    exact ⟨by decide, name.plain⟩

theorem plain_tokens (hitems : items.Plain) {ty : Ty Item}
    (hparams : ∀ name ∈ ty.params items, name.Plain) :
    ∀ token ∈ (ty.parts items).map NamePart.token, token.Plain := by
  intro token htoken
  obtain ⟨part, hpart, rfl⟩ := List.mem_map.mp htoken
  apply (partOfName_parts items ty part hpart).plain hitems
  rintro name rfl
  exact hparams name ((mem_params_iff items).mpr hpart)

theorem newline_notMem_name (hitems : items.Plain) {ty : Ty Item}
    (hparams : ∀ name ∈ ty.params items, name.Plain) :
    '\n' ∉ (encodePredicateUse items ty).toList := by
  rw [toList_encodePredicateUse]
  intro hmem
  rcases mem_joined hmem with hsep | ⟨text, htext, hletter⟩
  · exact absurd hsep (by decide)
  · obtain ⟨part, hpart, rfl⟩ := List.mem_map.mp htext
    have htoken := plain_tokens hitems hparams part.token (List.mem_map_of_mem hpart)
    cases part with
    | word text =>
      cases htoken with
      | word _ hline => exact hline hletter
    | param name =>
      cases htoken with
      | param _ hline =>
        rcases List.mem_append.mp hletter with hopen | hletter
        · exact absurd hopen (by decide)
        · rcases List.mem_append.mp hletter with hbody | hclose
          · exact hline hbody
          · exact absurd hclose (by decide)

end Plain

section Learned

variable {Item : Type} (items : ItemNames Item)

/-- A type parameter as it is spelled in names. -/
def paramText (name : ParamName) : List Char := (NamePart.token (.param name)).text

theorem paramText_injective : Function.Injective paramText := by
  intro name name' h
  have hbody := List.append_cancel_right (List.append_cancel_left h)
  exact ParamName.text_injective (append_left_injective _ (String.toList_inj.mp hbody))

theorem toList_encodePredicateUse_param (index : Nat) (name : ParamName) :
    (encodePredicateUse items (.param index name)).toList = paramText name := by
  rw [toList_encodePredicateUse]
  rfl

variable (g : Ty Item) (s : ParamName → Ty Item)

/-- The names that replace the parameters of a generic name. -/
def replacementOf (text : List Char) : List Char :=
  match (g.params items).find? fun name => paramText name == text with
  | some name => (encodePredicateUse items (s name)).toList
  | none => text

/-- Learning the substitution from the names instantiates every other name over
the same parameters. -/
def LearnsExactly : Prop :=
  ∃ substs,
    learn (encodePredicateUse items g) (encodePredicateUse items (g.subst s)) = some substs ∧
      ∀ h : Ty Item, (∀ name ∈ h.params items, name ∈ g.params items) →
        apply substs (encodePredicateUse items h) = encodePredicateUse items (h.subst s)

/-- The substitution keeps the names of the parameters. -/
def KeepsParams : Prop :=
  ∀ name ∈ g.params items, encodePredicateUse items (s name) =
    encodePredicateUse items (.param 0 name)

/-- In every other way to find the fixed texts of the generic name in the name of
the instance, the first replacement of another length is longer. -/
def CutsShortest : Prop :=
  ∀ first rest tail other,
    Token.fixedTexts [] ((g.parts items).map NamePart.token) = first :: rest →
      (encodePredicateUse items (g.subst s)).toList = first ++ tail →
        IsSplit rest other tail →
          LazyLe ((g.params items).map fun name =>
            (encodePredicateUse items (s name)).toList) other

variable {items g s}

theorem replacementOf_paramText {name : ParamName} (hname : name ∈ g.params items) :
    replacementOf items g s (paramText name) = (encodePredicateUse items (s name)).toList := by
  rw [replacementOf]
  cases hfind : (g.params items).find? fun other => paramText other == paramText name with
  | none =>
    have hne := List.find?_eq_none.mp hfind name hname
    exact absurd BEq.rfl hne
  | some other =>
    have htext := List.find?_some hfind
    rw [paramText_injective (eq_of_beq htext)]

/-- The type parameters of a name, as they are spelled. -/
theorem params_tokens (parts : List NamePart) :
    Token.params (parts.map NamePart.token) = (parts.filterMap NamePart.param?).map paramText := by
  induction parts with
  | nil => rfl
  | cons part parts ih =>
    cases part with
    | word text => exact ih
    | param name => exact congrArg _ ih

theorem toList_instance :
    (encodePredicateUse items (g.subst s)).toList =
      joined '$' (((g.parts items).map NamePart.token).map
        (Token.valued (replacementOf items g s))) := by
  rw [List.map_map]
  exact toList_encodePredicateUse_valued items s g fun name hname =>
    replacementOf_paramText hname

theorem encodePredicateUse_subst_eq :
    encodePredicateUse items (g.subst s) =
      concreteName ((g.parts items).map NamePart.token) (replacementOf items g s) := by
  apply String.toList_inj.mp
  rw [toList_instance, concreteName, String.toList_ofList]

theorem map_replacementOf_params :
    (Token.params ((g.parts items).map NamePart.token)).map (replacementOf items g s) =
      (g.params items).map fun name => (encodePredicateUse items (s name)).toList := by
  rw [params_tokens, List.map_map]
  apply List.map_congr_left
  intro name hname
  exact replacementOf_paramText hname

theorem keepsParams_iff :
    KeepsParams items g s ↔
      ∀ typaram ∈ Token.params ((g.parts items).map NamePart.token),
        replacementOf items g s typaram = typaram := by
  rw [params_tokens, List.forall_mem_map]
  apply forall₂_congr
  intro name hname
  rw [replacementOf_paramText hname, ← toList_encodePredicateUse_param items 0, String.toList_inj]

theorem cutsShortest_iff :
    CutsShortest items g s ↔
      ShortestCut ((g.parts items).map NamePart.token) (replacementOf items g s) := by
  rw [CutsShortest, ShortestCut, map_replacementOf_params, toList_instance]

/-- A name that is kept has kept parameters. -/
theorem keepsParams_of_eq (h : encodePredicateUse items g = encodePredicateUse items (g.subst s)) :
    KeepsParams items g s := by
  intro name hname
  rw [← encodePredicateUse_subst_param items g] at h
  exact ((encodePredicateUse_subst_eq_iff items g).mp h name hname).symm

theorem fixedTexts_ne_nil {pending : List Char} (hpending : pending ≠ [])
    (tokens : List Token) (rest : List (List Char)) :
    Token.fixedTexts pending tokens ≠ [] :: rest := by
  induction tokens generalizing pending with
  | nil => exact fun h => hpending (List.cons.inj h).1
  | cons token tokens ih =>
    cases token with
    | param body =>
      cases tokens with
      | nil => exact fun h => hpending (List.cons.inj h).1
      | cons next tokens => exact fun h => hpending (List.cons.inj h).1
    | word text =>
      cases tokens with
      | nil => exact fun h => hpending (List.append_eq_nil_iff.mp (List.cons.inj h).1).1
      | cons next tokens => exact ih (by simp)

/-- A name begins with a word, unless it is a type parameter. -/
theorem fixedTexts_parts_ne (hnodup : ¬ (g.params items).Nodup) (rest : List (List Char)) :
    Token.fixedTexts [] ((g.parts items).map NamePart.token) ≠ [] :: rest := by
  cases hparts : g.parts items with
  | nil => exact absurd hparts (g.parts_ne_nil items)
  | cons part parts =>
    cases parts with
    | nil =>
      apply absurd _ hnodup
      rw [Ty.params, hparts]
      cases part with
      | word text => exact List.nodup_nil
      | param name => exact List.nodup_singleton name
    | cons next parts =>
      cases part with
      | word text =>
        change Token.fixedTexts ([] ++ text.toList ++ ['$']) _ ≠ _
        exact fixedTexts_ne_nil (by simp) _ _
      | param name =>
        cases g with
        | tuple elems => cases elems <;> cases hparts
        | _ => cases hparts

/-- Learning from names is exact if and only if nothing is replaced, or every
parameter occurs once and the replacements are the shortest cut. -/
theorem learnsExactly_iff (hitems : items.Plain) (hparams : ∀ name ∈ g.params items, name.Plain)
    (hvalues : ∀ name ∈ g.params items, ∀ other ∈ (s name).params items, other.Plain) :
    LearnsExactly items g s ↔ KeepsParams items g s ∨
      (g.params items).Nodup ∧ CutsShortest items g s := by
  have hplain := plain_tokens hitems hparams
  have hline : '\n' ∉ joined '$' (((g.parts items).map NamePart.token).map
      (Token.valued (replacementOf items g s))) := by
    rw [← toList_instance]
    apply newline_notMem_name hitems
    intro other hother
    obtain ⟨name, hname, hother⟩ := mem_params_subst items s hother
    exact hvalues name hname other hother
  have hnodup : (Token.params ((g.parts items).map NamePart.token)).Nodup ↔
      (g.params items).Nodup := by
    rw [params_tokens]
    exact List.nodup_map_iff paramText_injective
  have hlearn := learn_iff hplain hline (fun h => by
      rw [← encodePredicateUse_eq_nameOf, ← encodePredicateUse_subst_eq] at h
      exact keepsParams_iff.mp (keepsParams_of_eq h))
    (fun h => fixedTexts_parts_ne (mt hnodup.mpr h))
  rw [← keepsParams_iff, hnodup, ← cutsShortest_iff, ← encodePredicateUse_eq_nameOf,
    ← encodePredicateUse_subst_eq] at hlearn
  rw [← hlearn, LearnsExactly]
  apply exists_congr
  intro substs
  rw [and_congr_right_iff]
  intro _
  rw [params_tokens, List.forall_mem_map]
  constructor
  · intro happly name hname
    have hname' : ∀ other ∈ (Ty.param 0 name : Ty Item).params items, other ∈ g.params items := by
      intro other hother
      cases List.mem_singleton.mp hother
      exact hname
    have hparam := congrArg String.toList (happly (.param 0 name) hname')
    rw [encodePredicateUse_eq_nameOf, apply_nameOf (plain_tokens hitems fun other hother =>
      hparams other (hname' other hother)), String.toList_ofList] at hparam
    rw [replacementOf_paramText hname]
    exact hparam
  · intro hreplacement h hsub
    apply String.toList_inj.mp
    rw [encodePredicateUse_eq_nameOf, apply_nameOf (plain_tokens hitems fun other hother =>
      hparams other (hsub other hother)), String.toList_ofList, List.map_map]
    symm
    apply toList_encodePredicateUse_valued
    intro name hname
    exact (hreplacement name (hsub name hname)).trans (replacementOf_paramText (hsub name hname))

end Learned

namespace Witness

def tyA : ParamName := ⟨"A", by decide⟩

def tyB : ParamName := ⟨"B", by decide⟩

def i8 : Ty Bool := .prim (.int .i8)

def pairOf (first second : Ty Bool) : Ty Bool := .tuple [first, second]

/-- `A` is replaced by the first type, and every other parameter by the second. -/
def assign (first second : Ty Bool) (name : ParamName) : Ty Bool :=
  if name.text = "A" then first else second

def pairAB : Ty Bool := pairOf (.param 0 tyA) (.param 1 tyB)

/-- A pair in the place of the first of two parameters is cut too early. -/
theorem nested_not_learnsExactly : ¬ LearnsExactly twoItems pairAB (assign (pairOf i8 i8) i8) := by
  rintro ⟨substs, hlearn, happly⟩
  have hinstance := happly (.param 0 tyA) (by decide +kernel)
  have hcut : (learn (encodePredicateUse twoItems pairAB)
      (encodePredicateUse twoItems (pairAB.subst (assign (pairOf i8 i8) i8)))).map
        (fun substs => apply substs (encodePredicateUse twoItems (.param 0 tyA))) =
          some "tuple2" := by
    decide +kernel
  rw [hlearn, Option.map_some, hinstance] at hcut
  exact absurd (Option.some.inj hcut) (by decide +kernel)

theorem twoItems_plain : twoItems.Plain where
  mark := by decide +kernel
  letters := by
    intro item
    have hname : (encodeItemName twoItems item).toList = ['m', '_', if item then 'T' else 'S'] := by
      cases item <;> rfl
    have hletters : ['m', '_', if item then 'T' else 'S'].all (· ∉ patternLetters) = true := by
      cases item <;> decide
    rw [hname]
    exact fun letter hletter => of_decide_eq_true (List.all_eq_true.mp hletters letter hletter)

/-- A pair in the place of the last parameter is cut right. -/
theorem learnsExactly_lastPair : LearnsExactly twoItems pairAB (assign i8 (pairOf i8 i8)) := by
  apply (learnsExactly_iff twoItems_plain (by decide +kernel) (by decide +kernel)).mpr
  refine .inr ⟨by decide +kernel, ?_⟩
  intro first rest tail other hfixed htext hother
  have hliterals : Token.fixedTexts [] ((pairAB.parts twoItems).map NamePart.token) =
      ["tuple2$".toList, ['$'], []] := by
    decide +kernel
  have hname : (encodePredicateUse twoItems
      (pairAB.subst (assign i8 (pairOf i8 i8)))).toList =
        "tuple2$".toList ++ 'i' :: '8' :: '$' :: "tuple2$i8$i8".toList := by
    decide +kernel
  rw [hliterals] at hfixed
  cases hfixed
  rw [hname] at htext
  obtain rfl := List.append_cancel_left htext
  obtain ⟨capture, rest, tail, rfl, hcapture, hrest⟩ := isSplit_cons_iff.mp hother
  have hvalues : (pairAB.params twoItems).map (fun name =>
      (encodePredicateUse twoItems (assign i8 (pairOf i8 i8) name)).toList) =
        [['i', '8'], "tuple2$i8$i8".toList] := by
    decide +kernel
  rw [hvalues]
  match capture with
  | [] | [_] => simp at hcapture
  | [_, _] =>
    simp only [List.cons_append, List.nil_append, List.cons.injEq, true_and] at hcapture
    obtain ⟨rfl, rfl, rfl⟩ := hcapture
    obtain ⟨capture, rest, tail, rfl, hcapture, hrest⟩ := isSplit_cons_iff.mp hrest
    obtain ⟨rfl, rfl⟩ := isSplit_nil_iff.mp hrest
    rw [List.append_nil, List.append_nil] at hcapture
    rw [hcapture]
    exact .same _ (.same _ .nil)
  | _ :: _ :: _ :: _ => exact .shorter (by simp)

end Witness

end Prusti.Encoder

/-
The substitution that is learned from the names of a generic type and of its
instance, compared with the substitution of types.
-/
import Prusti.Encoder.UniqueTypeNames
import Prusti.Vir.TyparamMatch

namespace Prusti.Encoder

open Prusti.Lib Prusti.Vir.Typaram

section Subst

variable {Item : Type} (s : ParamName → Ty Item)

mutual

/-- Replace the type parameters of a type. -/
def Ty.subst : Ty Item → Ty Item
  | .prim ty => .prim ty
  | .never => .never
  | .str => .str
  | .rawPtr ty mutbl => .rawPtr ty.subst mutbl
  | .ref region ty mutbl => .ref region ty.subst mutbl
  | .adt item substs => .adt item (Ty.substArgs substs)
  | .tuple elems => .tuple (Ty.substEach elems)
  | .array elemTy len => .array elemTy.subst len
  | .slice elemTy => .slice elemTy.subst
  | .param _ name => s name

def Ty.substEach : List (Ty Item) → List (Ty Item)
  | [] => []
  | ty :: rest => ty.subst :: Ty.substEach rest

def Ty.substArgs : List (GenericArg Item) → List (GenericArg Item)
  | [] => []
  | arg :: rest => GenericArg.subst arg :: Ty.substArgs rest

def GenericArg.subst : GenericArg Item → GenericArg Item
  | .lifetime region => .lifetime region
  | .type ty => .type ty.subst
  | .const value => .const value

end

theorem length_substEach (elems : List (Ty Item)) :
    (Ty.substEach s elems).length = elems.length := by
  induction elems with
  | nil => rfl
  | cons ty elems ih => rw [Ty.substEach, List.length_cons, List.length_cons, ih]

variable (s' : ParamName → Ty Item)

mutual

/-- Two substitutions, one after the other. -/
theorem Ty.subst_subst (ty : Ty Item) :
    (ty.subst s).subst s' = ty.subst fun name => (s name).subst s' := by
  match ty with
  | .prim _ | .never | .str | .param _ _ => rfl
  | .rawPtr ty _ | .ref _ ty _ | .slice ty | .array ty _ =>
    rw [Ty.subst, Ty.subst, Ty.subst, Ty.subst_subst ty]
  | .adt item substs => rw [Ty.subst, Ty.subst, Ty.subst, Ty.substArgs_substArgs substs]
  | .tuple elems => rw [Ty.subst, Ty.subst, Ty.subst, Ty.substEach_substEach elems]

theorem Ty.substEach_substEach (elems : List (Ty Item)) :
    Ty.substEach s' (Ty.substEach s elems) =
      Ty.substEach (fun name => (s name).subst s') elems := by
  match elems with
  | [] => rfl
  | ty :: rest =>
    rw [Ty.substEach, Ty.substEach, Ty.substEach, Ty.subst_subst ty, Ty.substEach_substEach rest]

theorem Ty.substArgs_substArgs (substs : List (GenericArg Item)) :
    Ty.substArgs s' (Ty.substArgs s substs) =
      Ty.substArgs (fun name => (s name).subst s') substs := by
  match substs with
  | [] => rfl
  | arg :: rest =>
    rw [Ty.substArgs, Ty.substArgs, Ty.substArgs, GenericArg.subst_subst arg,
      Ty.substArgs_substArgs rest]

theorem GenericArg.subst_subst (arg : GenericArg Item) :
    GenericArg.subst s' (GenericArg.subst s arg) =
      GenericArg.subst (fun name => (s name).subst s') arg := by
  match arg with
  | .type ty => rw [GenericArg.subst, GenericArg.subst, GenericArg.subst, Ty.subst_subst ty]
  | .lifetime _ | .const _ => rfl

end

end Subst

/-- A part of the name of a type: a word, or a type parameter. -/
inductive NamePart where
  | word (text : String)
  | param (name : ParamName)

namespace NamePart

def words : NamePart → List String
  | word text => [text]
  | param name => ["__TYPARAM__", "_" ++ name.text, "__"]

def token : NamePart → Token
  | word text => .word text.toList
  | param name => .param ("_" ++ name.text).toList

def param? : NamePart → Option ParamName
  | word _ => none
  | param name => some name

theorem words_ne_nil (part : NamePart) : part.words.map String.toList ≠ [] := by
  cases part <;> exact List.cons_ne_nil _ _

/-- A part is joined from its words. -/
theorem text_token (part : NamePart) :
    part.token.text = joined '$' (part.words.map String.toList) := by
  cases part with
  | word text => rfl
  | param name =>
    have hopen : typaramOpen = "__TYPARAM__".toList ++ ['$'] := by decide
    have hclose : typaramClose = '$' :: "__".toList := by decide
    change typaramOpen ++ (_ ++ typaramClose) =
      "__TYPARAM__".toList ++ '$' :: (_ ++ '$' :: "__".toList)
    rw [hopen, hclose]
    simp

end NamePart

section Parts

variable {Item : Type} (items : ItemNames Item)

mutual

/-- The parts that are joined to the name of a type. -/
def Ty.parts : Ty Item → List NamePart
  | .prim ty => [.word ty.encodePredicateUse]
  | .rawPtr ty _ => .word "raw_ref" :: ty.parts
  | .ref _ ty _ => .word "ref" :: ty.parts
  | .adt item substs =>
    .word (encodeItemName items item) :: .word "_beg_" ::
      (Ty.partsArgs true substs ++ [.word "_end_"])
  | .tuple [] => [.word ("tuple" ++ toString 0), .word ""]
  | .tuple (first :: rest) =>
    .word ("tuple" ++ toString (rest.length + 1)) :: (first.parts ++ Ty.partsEach rest)
  | .never => [.word "never"]
  | .str => [.word "str"]
  | .array elemTy len => .word "Array" :: .word (toString len) :: elemTy.parts
  | .slice elemTy => .word "Slice" :: elemTy.parts
  | .param _ name => [.param name]

def Ty.partsEach : List (Ty Item) → List NamePart
  | [] => []
  | ty :: rest => ty.parts ++ Ty.partsEach rest

def Ty.partsArgs (first : Bool) : List (GenericArg Item) → List NamePart
  | [] => []
  | arg :: rest =>
    (if first then [] else [.word "_sep_"]) ++ (GenericArg.parts arg ++ Ty.partsArgs false rest)

def GenericArg.parts : GenericArg Item → List NamePart
  | .type ty => ty.parts
  | .lifetime _ => []
  | .const _ => []

end

/-- The type parameters of a type, with their repetitions. -/
def Ty.params (ty : Ty Item) : List ParamName := (ty.parts items).filterMap NamePart.param?

mutual

theorem words_eq_flatMap (ty : Ty Item) :
    ty.words items = (ty.parts items).flatMap NamePart.words := by
  match ty with
  | .prim _ | .never | .str | .param _ _ => rfl
  | .rawPtr ty _ | .ref _ ty _ | .slice ty | .array ty _ =>
    rw [Ty.words, Ty.parts, words_eq_flatMap ty]
    rfl
  | .adt item substs =>
    rw [Ty.words, Ty.parts, wordsArgs_eq_flatMap true substs]
    simp [NamePart.words]
  | .tuple [] => rfl
  | .tuple (first :: rest) =>
    rw [Ty.words, Ty.parts, words_eq_flatMap first, wordsEach_eq_flatMap rest]
    simp [NamePart.words]

theorem wordsEach_eq_flatMap (elems : List (Ty Item)) :
    Ty.wordsEach items elems = (Ty.partsEach items elems).flatMap NamePart.words := by
  match elems with
  | [] => rfl
  | ty :: rest =>
    rw [Ty.wordsEach, Ty.partsEach, words_eq_flatMap ty,
      wordsEach_eq_flatMap rest, List.flatMap_append]

theorem wordsArgs_eq_flatMap (first : Bool) (substs : List (GenericArg Item)) :
    Ty.wordsArgs items first substs = (Ty.partsArgs items first substs).flatMap NamePart.words := by
  match substs with
  | [] => rfl
  | arg :: rest =>
    rw [Ty.wordsArgs, Ty.partsArgs, wordsArg_eq_flatMap arg,
      wordsArgs_eq_flatMap false rest, List.flatMap_append, List.flatMap_append]
    cases first <;> rfl

theorem wordsArg_eq_flatMap (arg : GenericArg Item) :
    GenericArg.words items arg = (GenericArg.parts items arg).flatMap NamePart.words := by
  match arg with
  | .type ty => exact words_eq_flatMap ty
  | .lifetime _ | .const _ => rfl

end

theorem Ty.parts_ne_nil (ty : Ty Item) : ty.parts items ≠ [] := by
  intro h
  apply ty.words_ne_nil items
  rw [words_eq_flatMap, h, List.flatMap_nil]

/-- The name of a type is joined from its parts. -/
theorem toList_encodePredicateUse (ty : Ty Item) :
    (encodePredicateUse items ty).toList =
      joined '$' ((ty.parts items).map fun part => part.token.text) := by
  rw [encodePredicateUse_eq, toList_joinNames, words_eq_flatMap, List.map_flatMap,
    joined_flatMap fun part _ => part.words_ne_nil]
  congr 1
  apply List.map_congr_left
  intro part _
  exact part.text_token.symm

theorem encodePredicateUse_eq_nameOf (ty : Ty Item) :
    encodePredicateUse items ty = nameOf ((ty.parts items).map NamePart.token) := by
  apply String.toList_inj.mp
  rw [toList_encodePredicateUse, nameOf, String.toList_ofList, List.map_map]
  rfl

end Parts

section PartsSubst

variable {Item : Type} (items : ItemNames Item) (s : ParamName → Ty Item)

/-- The parts that take the place of a part. -/
def NamePart.subst : NamePart → List NamePart
  | word text => [.word text]
  | param name => (s name).parts items

mutual

/-- The parts of a type whose parameters are replaced. -/
theorem parts_subst (ty : Ty Item) :
    (ty.subst s).parts items = (ty.parts items).flatMap (NamePart.subst items s) := by
  match ty with
  | .prim _ | .never | .str => rfl
  | .param _ name => rw [Ty.subst, Ty.parts, List.flatMap_singleton, NamePart.subst]
  | .rawPtr ty _ | .ref _ ty _ | .slice ty | .array ty _ =>
    rw [Ty.subst, Ty.parts, Ty.parts, parts_subst ty]
    rfl
  | .adt item substs =>
    rw [Ty.subst, Ty.parts, Ty.parts, partsArgs_subst true substs]
    simp [NamePart.subst]
  | .tuple [] => rfl
  | .tuple (first :: rest) =>
    rw [Ty.subst, Ty.substEach, Ty.parts, Ty.parts, length_substEach, parts_subst first,
      partsEach_subst rest]
    simp [NamePart.subst]

theorem partsEach_subst (elems : List (Ty Item)) :
    Ty.partsEach items (Ty.substEach s elems) =
      (Ty.partsEach items elems).flatMap (NamePart.subst items s) := by
  match elems with
  | [] => rfl
  | ty :: rest =>
    rw [Ty.substEach, Ty.partsEach, Ty.partsEach, parts_subst ty, partsEach_subst rest,
      List.flatMap_append]

theorem partsArgs_subst (first : Bool) (substs : List (GenericArg Item)) :
    Ty.partsArgs items first (Ty.substArgs s substs) =
      (Ty.partsArgs items first substs).flatMap (NamePart.subst items s) := by
  match substs with
  | [] => rfl
  | arg :: rest =>
    rw [Ty.substArgs, Ty.partsArgs, Ty.partsArgs, partsArg_subst arg,
      partsArgs_subst false rest, List.flatMap_append, List.flatMap_append]
    cases first <;> rfl

theorem partsArg_subst (arg : GenericArg Item) :
    GenericArg.parts items (GenericArg.subst s arg) =
      (GenericArg.parts items arg).flatMap (NamePart.subst items s) := by
  match arg with
  | .type ty => exact parts_subst ty
  | .lifetime _ | .const _ => rfl

end

theorem mem_params_iff {ty : Ty Item} {name : ParamName} :
    name ∈ ty.params items ↔ .param name ∈ ty.parts items := by
  rw [Ty.params, List.mem_filterMap]
  constructor
  · rintro ⟨part, hpart, hname⟩
    cases part with
    | word text => cases hname
    | param other =>
      cases hname
      exact hpart
  · intro hpart
    exact ⟨.param name, hpart, rfl⟩

/-- The parameters of an instance are those of the replacements. -/
theorem mem_params_subst {ty : Ty Item} {name : ParamName} (h : name ∈ (ty.subst s).params items) :
    ∃ param ∈ ty.params items, name ∈ (s param).params items := by
  rw [mem_params_iff, parts_subst, List.mem_flatMap] at h
  obtain ⟨part, hpart, hname⟩ := h
  cases part with
  | word text => cases List.mem_singleton.mp hname
  | param param => exact ⟨param, (mem_params_iff items).mpr hpart, (mem_params_iff items).mpr hname⟩

/-- The text of a part of a name, with its parameter replaced. -/
def NamePart.instanceText : NamePart → List Char
  | word text => text.toList
  | param name => (encodePredicateUse items (s name)).toList

/-- The name of an instance is joined from the words and the names of the replacements. -/
theorem toList_encodePredicateUse_subst (ty : Ty Item) :
    (encodePredicateUse items (ty.subst s)).toList =
      joined '$' ((ty.parts items).map (NamePart.instanceText items s)) := by
  rw [toList_encodePredicateUse, parts_subst, List.map_flatMap, joined_flatMap]
  · congr 1
    apply List.map_congr_left
    intro part hpart
    cases part with
    | word text => rfl
    | param param => rw [NamePart.subst, ← toList_encodePredicateUse, NamePart.instanceText]
  · intro part _
    cases part with
    | word text => exact List.cons_ne_nil _ _
    | param param => exact fun h => (s param).parts_ne_nil items (List.map_eq_nil_iff.mp h)

theorem toList_encodePredicateUse_valued (ty : Ty Item) {value : List Char → List Char}
    (hvalue : ∀ param ∈ ty.params items,
      value (NamePart.token (.param param)).text = (encodePredicateUse items (s param)).toList) :
    (encodePredicateUse items (ty.subst s)).toList =
      joined '$' ((ty.parts items).map fun part => part.token.valued value) := by
  rw [toList_encodePredicateUse_subst]
  congr 1
  apply List.map_congr_left
  intro part hpart
  cases part with
  | word text => rfl
  | param param => exact (hvalue param ((mem_params_iff items).mpr hpart)).symm

end PartsSubst

section Injective

variable {Item : Type} (items : ItemNames Item) {s s' : ParamName → Ty Item}

mutual

/-- Two instances that look the same have replacements that look the same. -/
theorem forget_subst_inj (ty : Ty Item) (h : (ty.subst s).forget = (ty.subst s').forget)
    {name : ParamName} (hname : .param name ∈ ty.parts items) :
    (s name).forget = (s' name).forget := by
  match ty with
  | .prim _ | .never | .str =>
    rw [Ty.parts] at hname
    cases List.mem_singleton.mp hname
  | .param _ other =>
    rw [Ty.parts] at hname
    cases List.mem_singleton.mp hname
    exact h
  | .rawPtr ty _ | .ref _ ty _ | .slice ty =>
    rw [Ty.subst, Ty.subst, Ty.forget, Ty.forget] at h
    injection h
    rw [Ty.parts, List.mem_cons, or_iff_right (by simp)] at hname
    exact forget_subst_inj ty (by assumption) hname
  | .array ty _ =>
    rw [Ty.subst, Ty.subst, Ty.forget, Ty.forget] at h
    injection h
    rw [Ty.parts, List.mem_cons, List.mem_cons, or_iff_right (by simp),
      or_iff_right (by simp)] at hname
    exact forget_subst_inj ty (by assumption) hname
  | .tuple [] =>
    rw [Ty.parts] at hname
    simp at hname
  | .tuple (first :: rest) =>
    rw [Ty.subst, Ty.subst, Ty.forget, Ty.forget, Ty.substEach, Ty.substEach, Ty.forgetEach,
      Ty.forgetEach] at h
    injection h with h
    obtain ⟨hfirst, hrest⟩ := List.cons.inj h
    rw [Ty.parts, List.mem_cons, or_iff_right (by simp), List.mem_append] at hname
    rcases hname with hname | hname
    · exact forget_subst_inj first hfirst hname
    · exact forget_subst_injEach rest hrest hname
  | .adt did [] =>
    rw [Ty.parts, Ty.partsArgs] at hname
    simp at hname
  | .adt did (arg :: substs) =>
    rw [Ty.subst, Ty.subst, Ty.substArgs, Ty.substArgs, Ty.forget, Ty.forget] at h
    injection h with _ h
    obtain ⟨harg, hsubsts⟩ := List.cons.inj h
    simp only [Ty.parts, Ty.partsArgs, if_true, List.nil_append, List.mem_cons,
      List.mem_append, reduceCtorEq, false_or, List.not_mem_nil, or_false] at hname
    rcases hname with hname | hname
    · exact forget_subst_injArg arg harg hname
    · exact forget_subst_injArgs substs hsubsts hname

theorem forget_subst_injEach (elems : List (Ty Item))
    (h : Ty.forgetEach (Ty.substEach s elems) = Ty.forgetEach (Ty.substEach s' elems))
    {name : ParamName} (hname : .param name ∈ Ty.partsEach items elems) :
    (s name).forget = (s' name).forget := by
  match elems with
  | [] =>
    rw [Ty.partsEach] at hname
    cases hname
  | ty :: rest =>
    rw [Ty.substEach, Ty.substEach, Ty.forgetEach, Ty.forgetEach] at h
    obtain ⟨hty, hrest⟩ := List.cons.inj h
    rw [Ty.partsEach, List.mem_append] at hname
    rcases hname with hname | hname
    · exact forget_subst_inj ty hty hname
    · exact forget_subst_injEach rest hrest hname

theorem forget_subst_injArgs (substs : List (GenericArg Item))
    (h : Ty.forgetArgs (Ty.substArgs s substs) = Ty.forgetArgs (Ty.substArgs s' substs))
    {name : ParamName} (hname : .param name ∈ Ty.partsArgs items false substs) :
    (s name).forget = (s' name).forget := by
  match substs with
  | [] =>
    rw [Ty.partsArgs] at hname
    cases hname
  | arg :: rest =>
    rw [Ty.substArgs, Ty.substArgs, Ty.forgetArgs, Ty.forgetArgs] at h
    obtain ⟨harg, hrest⟩ := List.cons.inj h
    rw [Ty.partsArgs, List.mem_append, List.mem_append] at hname
    rcases hname with hname | hname | hname
    · simp at hname
    · exact forget_subst_injArg arg harg hname
    · exact forget_subst_injArgs rest hrest hname

theorem forget_subst_injArg (arg : GenericArg Item)
    (h : (GenericArg.subst s arg).forget = (GenericArg.subst s' arg).forget)
    {name : ParamName} (hname : .param name ∈ GenericArg.parts items arg) :
    (s name).forget = (s' name).forget := by
  match arg with
  | .type ty =>
    rw [GenericArg.subst, GenericArg.subst, GenericArg.forget, GenericArg.forget] at h
    injection h with h
    exact forget_subst_inj ty h hname
  | .lifetime _ | .const _ => cases hname

end

/-- Two instances have the same name just when the replacements of the parameters have. -/
theorem encodePredicateUse_subst_eq_iff (ty : Ty Item) :
    encodePredicateUse items (ty.subst s) = encodePredicateUse items (ty.subst s') ↔
      ∀ name ∈ ty.params items,
        encodePredicateUse items (s name) = encodePredicateUse items (s' name) := by
  constructor
  · intro h name hname
    rw [encodePredicateUse_eq_iff] at h ⊢
    exact forget_subst_inj items ty h ((mem_params_iff items).mp hname)
  · intro h
    apply String.toList_inj.mp
    rw [toList_encodePredicateUse_subst, toList_encodePredicateUse_subst]
    congr 1
    apply List.map_congr_left
    intro part hpart
    cases part with
    | word text => rfl
    | param name => exact congrArg String.toList (h name ((mem_params_iff items).mpr hpart))

/-- Replacing the parameters by themselves keeps the name. -/
theorem encodePredicateUse_subst_param (ty : Ty Item) :
    encodePredicateUse items (ty.subst (.param 0)) = encodePredicateUse items ty := by
  apply String.toList_inj.mp
  rw [toList_encodePredicateUse_subst, toList_encodePredicateUse]
  congr 1
  apply List.map_congr_left
  intro part _
  cases part with
  | word text => rfl
  | param name =>
    rw [NamePart.instanceText, toList_encodePredicateUse]
    rfl

end Injective

end Prusti.Encoder

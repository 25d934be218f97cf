/-
The names of the predicates of types.
-/
import Prusti.Encoder.PrimitiveBounds
import Prusti.Lib.Joined
import Prusti.Lib.Names

namespace Prusti.Encoder

open Prusti.Lib

inductive Mutability where
  | mut
  | not
deriving Repr, DecidableEq

inductive Region where
  | erased
  | named (name : String)
deriving Repr, DecidableEq

/-- The name of a type parameter, an identifier of the source. -/
structure ParamName where
  text : String
  plain : '$' ∉ text.toList

/-- A constant of a primitive type, by its bits. -/
abbrev ConstValue := Nat

mutual

/-- The types whose names are modelled, over the items of a crate. -/
inductive Ty (Item : Type) where
  | prim (ty : PrimitiveTy)
  | never
  | str
  | rawPtr (ty : Ty Item) (mutbl : Mutability)
  | ref (region : Region) (ty : Ty Item) (mutbl : Mutability)
  | adt (item : Item) (substs : List (GenericArg Item))
  | tuple (elems : List (Ty Item))
  | array (elemTy : Ty Item) (len : Nat)
  | slice (elemTy : Ty Item)
  | param (index : Nat) (name : ParamName)

inductive GenericArg (Item : Type) where
  | lifetime (region : Region)
  | type (ty : Ty Item)
  | const (value : ConstValue)

end

/-- Join with `$`. -/
def joinNames : List String → String
  | [] => ""
  | [name] => name
  | name :: rest => name ++ "$" ++ joinNames rest

/-- The identifiers of the items of a crate: they are injective, and none begins with
another one that a `$` delimits. -/
structure ItemNames (Item : Type) where
  identifier : Item → String
  separable : ∀ item item', item ≠ item' →
    Separable '$' (identifier item).toList (identifier item').toList
  injective : Function.Injective identifier

section Names

variable {Item : Type} (items : ItemNames Item)

def encodeItemName (item : Item) : String := "m_" ++ items.identifier item

mutual

def encodePredicateUse : Ty Item → String
  | .prim ty => ty.encodePredicateUse
  | .rawPtr ty _ => "raw_ref$" ++ encodePredicateUse ty
  | .ref _ ty _ => "ref$" ++ encodePredicateUse ty
  | .adt item substs => joinNames [encodeItemName items item,
      joinNames ("_beg_" :: (encodeSubsts true substs ++ ["_end_"]))]
  | .tuple elems => "tuple" ++ toString elems.length ++ "$" ++ joinNames (encodeEach elems)
  | .never => "never"
  | .str => "str"
  | .array elemTy len => "Array$" ++ toString len ++ "$" ++ encodePredicateUse elemTy
  | .slice elemTy => "Slice$" ++ encodePredicateUse elemTy
  -- avoids "$T$", which is used internally in Silicon
  | .param _ name => "__TYPARAM__$_" ++ name.text ++ "$__"

def encodeEach : List (Ty Item) → List String
  | [] => []
  | ty :: rest => encodePredicateUse ty :: encodeEach rest

/-- The loop over generic arguments, which names the types among them. -/
def encodeSubsts (first : Bool) : List (GenericArg Item) → List String
  | [] => []
  | arg :: rest => (if first then [] else ["_sep_"]) ++ (encodeArg arg ++ encodeSubsts false rest)

def encodeArg : GenericArg Item → List String
  | .type ty => [encodePredicateUse ty]
  | .lifetime _ => []
  | .const _ => []

end

end Names

section Normal

variable {Item : Type}

mutual

/-- Forget the lifetimes and the mutability of references and pointers. -/
def Ty.eraseRegions : Ty Item → Ty Item
  | .prim ty => .prim ty
  | .never => .never
  | .str => .str
  | .rawPtr ty _ => .rawPtr ty.eraseRegions .not
  | .ref _ ty _ => .ref .erased ty.eraseRegions .not
  | .adt item substs => .adt item (Ty.eraseArgs substs)
  | .tuple elems => .tuple (Ty.eraseEach elems)
  | .array elemTy len => .array elemTy.eraseRegions len
  | .slice elemTy => .slice elemTy.eraseRegions
  | .param index name => .param index name

def Ty.eraseEach : List (Ty Item) → List (Ty Item)
  | [] => []
  | ty :: rest => ty.eraseRegions :: Ty.eraseEach rest

def Ty.eraseArgs : List (GenericArg Item) → List (GenericArg Item)
  | [] => []
  | arg :: rest => GenericArg.eraseRegions arg :: Ty.eraseArgs rest

def GenericArg.eraseRegions : GenericArg Item → GenericArg Item
  | .lifetime _ => .lifetime .erased
  | .type ty => .type ty.eraseRegions
  | .const value => .const value

end

mutual

/-- Forget, besides, the constants among generic arguments and the positions of type
parameters. -/
def Ty.forget : Ty Item → Ty Item
  | .prim ty => .prim ty
  | .never => .never
  | .str => .str
  | .rawPtr ty _ => .rawPtr ty.forget .not
  | .ref _ ty _ => .ref .erased ty.forget .not
  -- no arguments look like a single one that is no type
  | .adt item [] => .adt item [.lifetime .erased]
  | .adt item (arg :: rest) => .adt item (GenericArg.forget arg :: Ty.forgetArgs rest)
  | .tuple elems => .tuple (Ty.forgetEach elems)
  | .array elemTy len => .array elemTy.forget len
  | .slice elemTy => .slice elemTy.forget
  | .param _ name => .param 0 name

def Ty.forgetEach : List (Ty Item) → List (Ty Item)
  | [] => []
  | ty :: rest => ty.forget :: Ty.forgetEach rest

def Ty.forgetArgs : List (GenericArg Item) → List (GenericArg Item)
  | [] => []
  | arg :: rest => GenericArg.forget arg :: Ty.forgetArgs rest

def GenericArg.forget : GenericArg Item → GenericArg Item
  | .lifetime _ => .lifetime .erased
  | .type ty => .type ty.forget
  | .const _ => .lifetime .erased

end

end Normal

section Words

variable {Item : Type} (items : ItemNames Item)

mutual

/-- The words that are joined to the name of a type. -/
def Ty.words : Ty Item → List String
  | .prim ty => [ty.encodePredicateUse]
  | .rawPtr ty _ => "raw_ref" :: ty.words
  | .ref _ ty _ => "ref" :: ty.words
  | .adt item substs =>
    encodeItemName items item :: "_beg_" :: (Ty.wordsArgs true substs ++ ["_end_"])
  | .tuple [] => ["tuple" ++ toString 0, ""]
  | .tuple (first :: rest) =>
    ("tuple" ++ toString (rest.length + 1)) :: (first.words ++ Ty.wordsEach rest)
  | .never => ["never"]
  | .str => ["str"]
  | .array elemTy len => "Array" :: toString len :: elemTy.words
  | .slice elemTy => "Slice" :: elemTy.words
  | .param _ name => ["__TYPARAM__", "_" ++ name.text, "__"]

def Ty.wordsEach : List (Ty Item) → List String
  | [] => []
  | ty :: rest => ty.words ++ Ty.wordsEach rest

def Ty.wordsArgs (first : Bool) : List (GenericArg Item) → List String
  | [] => []
  | arg :: rest =>
    (if first then [] else ["_sep_"]) ++ (GenericArg.words arg ++ Ty.wordsArgs false rest)

def GenericArg.words : GenericArg Item → List String
  | .type ty => ty.words
  | .lifetime _ => []
  | .const _ => []

end

theorem joinNames_cons {name : String} {rest : List String} (h : rest ≠ []) :
    joinNames (name :: rest) = name ++ "$" ++ joinNames rest := by
  cases rest with
  | nil => exact absurd rfl h
  | cons => rfl

theorem joinNames_append {left right : List String} (hleft : left ≠ []) (hright : right ≠ []) :
    joinNames (left ++ right) = joinNames left ++ "$" ++ joinNames right := by
  induction left with
  | nil => exact absurd rfl hleft
  | cons name left ih =>
    rw [List.cons_append]
    cases left with
    | nil => exact joinNames_cons hright
    | cons name' left =>
      have hleft' : joinNames (name :: name' :: left) =
          name ++ "$" ++ joinNames (name' :: left) := rfl
      have ih := ih (List.cons_ne_nil _ _)
      rw [List.cons_append] at ih ⊢
      rw [joinNames_cons (List.cons_ne_nil _ _), ih, hleft']
      simp only [String.append_assoc]

/-- A name that is joined from words may be replaced by the words. -/
theorem joinNames_splice (front back : List String) {words : List String} (h : words ≠ []) :
    joinNames (front ++ joinNames words :: back) = joinNames (front ++ (words ++ back)) := by
  induction front with
  | nil =>
    rw [List.nil_append, List.nil_append]
    by_cases hback : back = []
    · rw [hback, List.append_nil]
      rfl
    · rw [joinNames_cons hback, joinNames_append h hback]
  | cons name front ih =>
    rw [List.cons_append, List.cons_append, joinNames_cons (by simp), ih,
      joinNames_cons (by simp [h])]

theorem toList_joinNames (names : List String) :
    (joinNames names).toList = joined '$' (names.map String.toList) := by
  induction names with
  | nil => rfl
  | cons name rest ih =>
    cases rest with
    | nil => rfl
    | cons name' rest =>
      have hjoined : joined '$' ((name :: name' :: rest).map String.toList) =
          name.toList ++ '$' :: joined '$' ((name' :: rest).map String.toList) := rfl
      rw [joinNames_cons (List.cons_ne_nil _ _), String.toList_append, String.toList_append,
        ih, hjoined, List.append_assoc]
      rfl

theorem Ty.words_ne_nil (ty : Ty Item) : ty.words items ≠ [] := by
  match ty with
  | .tuple [] => simp [words]
  | .tuple (_ :: _) => simp [words]
  | .prim _ => simp [words]
  | .rawPtr _ _ => simp [words]
  | .ref _ _ _ => simp [words]
  | .adt _ _ => simp [words]
  | .never => simp [words]
  | .str => simp [words]
  | .array _ _ => simp [words]
  | .slice _ => simp [words]
  | .param _ _ => simp [words]

mutual

/-- The name of a type is joined from its words. -/
theorem encodePredicateUse_eq (ty : Ty Item) :
    encodePredicateUse items ty = joinNames (ty.words items) := by
  match ty with
  | .prim _ => rw [encodePredicateUse, Ty.words, joinNames]
  | .never => rw [encodePredicateUse, Ty.words, joinNames]
  | .str => rw [encodePredicateUse, Ty.words, joinNames]
  | .rawPtr ty _ =>
    rw [encodePredicateUse, Ty.words, joinNames_cons (ty.words_ne_nil items),
      encodePredicateUse_eq ty]
    rfl
  | .ref _ ty _ =>
    rw [encodePredicateUse, Ty.words, joinNames_cons (ty.words_ne_nil items),
      encodePredicateUse_eq ty]
    rfl
  | .adt item substs =>
    have hsubsts := joinNames_encodeSubsts true substs [encodeItemName items item, "_beg_"]
      ["_end_"]
    rw [encodePredicateUse, Ty.words]
    refine (joinNames_splice [encodeItemName items item] [] (List.cons_ne_nil _ _)).trans ?_
    rw [List.append_nil]
    exact hsubsts
  | .tuple [] => rfl
  | .tuple (first :: rest) =>
    have hne : first.words items ++ Ty.wordsEach items rest ≠ [] :=
      List.append_ne_nil_of_left_ne_nil (first.words_ne_nil items) _
    have heach := joinNames_encodeEach rest [encodePredicateUse items first] []
    have hfirst := joinNames_splice [] (Ty.wordsEach items rest) (first.words_ne_nil items)
    rw [List.append_nil, List.append_nil, encodePredicateUse_eq first] at heach
    rw [encodePredicateUse, Ty.words, joinNames_cons hne, encodeEach, encodePredicateUse_eq first]
    exact congrArg (_ ++ ·) (heach.trans hfirst)
  | .array elemTy len =>
    rw [encodePredicateUse, Ty.words, joinNames_cons (List.cons_ne_nil _ _),
      joinNames_cons (elemTy.words_ne_nil items), encodePredicateUse_eq elemTy]
    simp only [← String.append_assoc]
    rfl
  | .slice elemTy =>
    rw [encodePredicateUse, Ty.words, joinNames_cons (elemTy.words_ne_nil items),
      encodePredicateUse_eq elemTy]
    rfl
  | .param _ name =>
    have hfront : "__TYPARAM__$_" = "__TYPARAM__" ++ "$" ++ "_" := rfl
    have hback : "$__" = "$" ++ "__" := rfl
    rw [encodePredicateUse, Ty.words, joinNames, joinNames, joinNames, hfront, hback]
    simp only [String.append_assoc]
    all_goals exact fun h => nomatch h

theorem joinNames_encodeEach (elems : List (Ty Item)) (front back : List String) :
    joinNames (front ++ (encodeEach items elems ++ back)) =
      joinNames (front ++ (Ty.wordsEach items elems ++ back)) := by
  match elems with
  | [] => rfl
  | ty :: rest =>
    have hrest := joinNames_encodeEach rest (front ++ ty.words items) back
    rw [encodeEach, Ty.wordsEach, List.cons_append, encodePredicateUse_eq ty,
      joinNames_splice front _ (ty.words_ne_nil items)]
    simpa only [List.append_assoc] using hrest

theorem joinNames_encodeSubsts (first : Bool) (substs : List (GenericArg Item))
    (front back : List String) :
    joinNames (front ++ (encodeSubsts items first substs ++ back)) =
      joinNames (front ++ (Ty.wordsArgs items first substs ++ back)) := by
  match substs with
  | [] => rfl
  | arg :: rest =>
    have harg := joinNames_encodeArg arg (front ++ if first then [] else ["_sep_"])
      (encodeSubsts items false rest ++ back)
    have hrest := joinNames_encodeSubsts false rest
      (front ++ (if first then [] else ["_sep_"]) ++ GenericArg.words items arg) back
    rw [encodeSubsts, Ty.wordsArgs]
    simp only [List.append_assoc] at harg hrest ⊢
    exact harg.trans hrest

theorem joinNames_encodeArg (arg : GenericArg Item) (front back : List String) :
    joinNames (front ++ (encodeArg items arg ++ back)) =
      joinNames (front ++ (GenericArg.words items arg ++ back)) := by
  match arg with
  | .type ty =>
    rw [encodeArg, GenericArg.words, encodePredicateUse_eq ty]
    exact joinNames_splice front back (ty.words_ne_nil items)
  | .lifetime _ => rfl
  | .const _ => rfl

end

end Words

end Prusti.Encoder

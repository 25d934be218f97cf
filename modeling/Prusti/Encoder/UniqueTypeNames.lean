/-
The names of types, read off again up to what leaves no trace in them.
-/
import Prusti.Encoder.TypeNames

namespace Prusti.Encoder

open Prusti.Lib

/-- What begins the name of a type that is neither a tuple nor an item. -/
inductive Keyword where
  | prim (ty : PrimitiveTy)
  | never
  | str
  | rawPtr
  | ref
  | array
  | slice
  | param
deriving Repr, DecidableEq

namespace Keyword

def word : Keyword → String
  | prim ty => ty.encodePredicateUse
  | never => "never"
  | str => "str"
  | rawPtr => "raw_ref"
  | ref => "ref"
  | array => "Array"
  | slice => "Slice"
  | param => "__TYPARAM__"

def all : List Keyword :=
  [prim .bool, prim .char, prim (.int .i8), prim (.int .i16), prim (.int .i32), prim (.int .i64),
    prim (.int .i128), prim (.int .isize),
    prim (.uint .u8), prim (.uint .u16), prim (.uint .u32), prim (.uint .u64),
    prim (.uint .u128), prim (.uint .usize), never, str, rawPtr, ref, array, slice, param]

theorem mem_all (keyword : Keyword) : keyword ∈ all := by
  rcases keyword with (_ | _ | ty | ty) | _ | _ | _ | _ | _ | _ | _ <;> try decide
  all_goals cases ty <;> decide

theorem word_injective : Function.Injective word := by
  have hall : ∀ keyword ∈ all, ∀ keyword' ∈ all,
      keyword.word = keyword'.word → keyword = keyword' := by decide
  intro keyword keyword' h
  exact hall keyword keyword.mem_all keyword' keyword'.mem_all h

/-- No keyword looks like the beginning of a tuple or an item, or like a delimiter. -/
theorem word_ne (keyword : Keyword) :
    keyword.word.toList.head? ≠ some 't' ∧ keyword.word.toList.head? ≠ some 'm' ∧
      keyword.word ≠ "_sep_" ∧ keyword.word ≠ "_end_" ∧ '$' ∉ keyword.word.toList := by
  have hall : ∀ keyword ∈ all,
      keyword.word.toList.head? ≠ some 't' ∧ keyword.word.toList.head? ≠ some 'm' ∧
        keyword.word ≠ "_sep_" ∧ keyword.word ≠ "_end_" ∧ '$' ∉ keyword.word.toList := by
    decide
  exact hall keyword keyword.mem_all

end Keyword

theorem ParamName.text_injective : Function.Injective ParamName.text := by
  rintro ⟨_, _⟩ ⟨_, _⟩ rfl
  rfl

/-- The first word of the name of a type. -/
inductive Head (Item : Type) where
  | keyword (keyword : Keyword)
  | tuple (arity : Nat)
  | item (item : Item)

section Reading

variable {Item : Type} (items : ItemNames Item)

namespace Head

def word : Head Item → String
  | .keyword key => key.word
  | .tuple arity => "tuple" ++ toString arity
  | .item did => encodeItemName items did

theorem head?_tuple (arity : Nat) : (word items (.tuple arity)).toList.head? = some 't' :=
  head?_append rfl

theorem head?_item (item : Item) : (word items (.item item)).toList.head? = some 'm' :=
  head?_append rfl

theorem word_injective : Function.Injective (word items) := by
  intro head head' h
  have hletter := congrArg (fun word => word.toList.head?) h
  match head, head', h, hletter with
  | .keyword _, .keyword _, h, _ => exact congrArg _ (Keyword.word_injective h)
  | .keyword key, .tuple arity, _, hletter =>
    exact absurd (hletter.trans (head?_tuple items arity)) key.word_ne.1
  | .keyword key, .item did, _, hletter =>
    exact absurd (hletter.trans (head?_item items did)) key.word_ne.2.1
  | .tuple arity, .keyword key, _, hletter =>
    exact absurd (hletter.symm.trans (head?_tuple items arity)) key.word_ne.1
  | .tuple _, .tuple _, h, _ => exact congrArg _ (toString_injective (append_left_injective _ h))
  | .tuple arity, .item did, _, hletter =>
    exact absurd ((head?_tuple items arity).symm.trans
      (hletter.trans (head?_item items did))) (by decide)
  | .item did, .keyword key, _, hletter =>
    exact absurd (hletter.symm.trans (head?_item items did)) key.word_ne.2.1
  | .item did, .tuple arity, _, hletter =>
    exact absurd ((head?_tuple items arity).symm.trans
      (hletter.symm.trans (head?_item items did))) (by decide)
  | .item _, .item _, h, _ => exact congrArg _ (items.injective (append_left_injective _ h))

/-- No head looks like a delimiter of generic arguments. -/
theorem word_ne (head : Head Item) : word items head ≠ "_sep_" ∧ word items head ≠ "_end_" := by
  match head with
  | .keyword key => exact ⟨key.word_ne.2.2.1, key.word_ne.2.2.2.1⟩
  | .tuple arity =>
    have hletter := head?_tuple items arity
    constructor <;> intro h <;> rw [h] at hletter <;> exact absurd hletter (by decide)
  | .item did =>
    have hletter := head?_item items did
    constructor <;> intro h <;> rw [h] at hletter <;> exact absurd hletter (by decide)

end Head

namespace Ty

def head : Ty Item → Head Item
  | prim ty => .keyword (.prim ty)
  | never => .keyword .never
  | str => .keyword .str
  | rawPtr _ _ => .keyword .rawPtr
  | ref _ _ _ => .keyword .ref
  | adt item _ => .item item
  | tuple elems => .tuple elems.length
  | array _ _ => .keyword .array
  | slice _ => .keyword .slice
  | param _ _ => .keyword .param

theorem head?_words (ty : Ty Item) : (ty.words items).head? = some (Head.word items ty.head) := by
  cases ty with
  | tuple elems =>
    cases elems with
    | nil | cons =>
      rw [words]
      rfl
  | _ =>
    rw [words]
    rfl

/-- The first word is the one of the head. -/
theorem words_eq (ty : Ty Item) : ∃ tail, ty.words items = Head.word items ty.head :: tail :=
  List.head?_eq_some_iff.mp (ty.head?_words items)

variable {items} {ty ty' : Ty Item} {rest rest' : List String}

/-- Two names that begin alike have the same head. -/
theorem head_eq (h : ty.words items ++ rest = ty'.words items ++ rest') : ty.head = ty'.head := by
  obtain ⟨tail, htail⟩ := ty.words_eq items
  obtain ⟨tail', htail'⟩ := ty'.words_eq items
  rw [htail, htail', List.cons_append, List.cons_append] at h
  exact Head.word_injective items (List.cons.inj h).1

/-- No name begins with a delimiter of generic arguments. -/
theorem words_append_ne (ty : Ty Item) {word : String} (hword : word = "_sep_" ∨ word = "_end_") :
    ty.words items ++ rest ≠ word :: rest' := by
  intro h
  obtain ⟨tail, htail⟩ := ty.words_eq items
  rw [htail, List.cons_append] at h
  rcases hword with rfl | rfl
  · exact (Head.word_ne items ty.head).1 (List.cons.inj h).1
  · exact (Head.word_ne items ty.head).2 (List.cons.inj h).1

/-- What follows a generic argument: a delimiter. -/
def Delimited (rest : List String) : Prop :=
  ∃ word tail, (word = "_sep_" ∨ word = "_end_") ∧ rest = word :: tail

theorem wordsArgs_delimited (substs : List (GenericArg Item)) (rest : List String) :
    Delimited (wordsArgs items false substs ++ "_end_" :: rest) := by
  cases substs with
  | nil => exact ⟨"_end_", rest, .inr rfl, by rw [wordsArgs, List.nil_append]⟩
  | cons arg substs =>
    refine ⟨"_sep_", GenericArg.words items arg ++
      (wordsArgs items false substs ++ "_end_" :: rest), .inl rfl, ?_⟩
    simp [wordsArgs]

/-- Generic arguments that leave no trace are none or a single one that is no type. -/
theorem forget_adt_of_wordsArgs (item : Item) {substs : List (GenericArg Item)}
    (h : wordsArgs items true substs ++ "_end_" :: rest = "_end_" :: rest') :
    (adt item substs).forget = (adt item []).forget ∧ rest = rest' := by
  match substs with
  | [] => exact ⟨rfl, by simpa [wordsArgs] using h⟩
  | [.type ty] =>
    simp only [wordsArgs, GenericArg.words, if_true, List.nil_append, List.append_nil] at h
    exact absurd h (ty.words_append_ne (.inr rfl))
  | [.lifetime _] =>
    exact ⟨by simp [forget, forgetArgs, GenericArg.forget],
      by simpa [wordsArgs, GenericArg.words] using h⟩
  | [.const _] =>
    exact ⟨by simp [forget, forgetArgs, GenericArg.forget],
      by simpa [wordsArgs, GenericArg.words] using h⟩
  | .type ty :: _ :: _ =>
    simp only [wordsArgs, GenericArg.words, if_true, List.nil_append, List.append_assoc] at h
    exact absurd h (ty.words_append_ne (.inr rfl))
  | .lifetime _ :: _ :: _ => simp [wordsArgs, GenericArg.words] at h
  | .const _ :: _ :: _ => simp [wordsArgs, GenericArg.words] at h

mutual

/-- The words of a type are read off again, up to what leaves no trace. -/
theorem words_append_inj (ty ty' : Ty Item) {rest rest' : List String}
    (h : ty.words items ++ rest = ty'.words items ++ rest') :
    ty.forget = ty'.forget ∧ rest = rest' := by
  have hhead := head_eq h
  match ty, ty', hhead with
  | .prim _, .prim _, hhead =>
    rw [words, words] at h
    have hprim : Keyword.prim _ = Keyword.prim _ := Head.keyword.inj hhead
    rw [Keyword.prim.inj hprim]
    exact ⟨rfl, (List.cons.inj h).2⟩
  | .never, .never, _ =>
    rw [words] at h
    exact ⟨rfl, (List.cons.inj h).2⟩
  | .str, .str, _ =>
    rw [words] at h
    exact ⟨rfl, (List.cons.inj h).2⟩
  | .rawPtr ty _, .rawPtr ty' _, _ =>
    rw [words, words] at h
    have hrest := words_append_inj ty ty' (List.cons.inj h).2
    rw [forget, forget, hrest.1]
    exact ⟨rfl, hrest.2⟩
  | .ref _ ty _, .ref _ ty' _, _ =>
    rw [words, words] at h
    have hrest := words_append_inj ty ty' (List.cons.inj h).2
    rw [forget, forget, hrest.1]
    exact ⟨rfl, hrest.2⟩
  | .slice ty, .slice ty', _ =>
    rw [words, words] at h
    have hrest := words_append_inj ty ty' (List.cons.inj h).2
    rw [forget, forget, hrest.1]
    exact ⟨rfl, hrest.2⟩
  | .array ty len, .array ty' len', _ =>
    rw [words, words] at h
    have hlen := List.cons.inj (List.cons.inj h).2
    have hrest := words_append_inj ty ty' hlen.2
    rw [forget, forget, hrest.1, toString_injective hlen.1]
    exact ⟨rfl, hrest.2⟩
  | .param _ name, .param _ name', _ =>
    rw [words, words] at h
    have hname := List.cons.inj (List.cons.inj h).2
    have htext : name = name' := ParamName.text_injective (append_left_injective _ hname.1)
    rw [forget, forget, htext]
    exact ⟨rfl, (List.cons.inj hname.2).2⟩
  | .tuple [], .tuple [], _ =>
    rw [words] at h
    exact ⟨rfl, List.append_cancel_left h⟩
  | .tuple (first :: elems), .tuple (first' :: elems'), hhead =>
    rw [words, words, List.cons_append, List.cons_append, List.append_assoc, List.append_assoc] at h
    have hfirst := words_append_inj first first' (List.cons.inj h).2
    have hlength : elems.length = elems'.length := Nat.succ.inj (Head.tuple.inj hhead)
    have helems := wordsEach_append_inj elems elems' hlength hfirst.2
    rw [forget, forget, forgetEach, forgetEach, hfirst.1, helems.1]
    exact ⟨rfl, helems.2⟩
  | .adt did substs, .adt did' substs', hhead =>
    obtain rfl := Head.item.inj hhead
    simp only [words, List.cons_append, List.append_assoc, List.nil_append] at h
    have h := (List.cons.inj (List.cons.inj h).2).2
    match substs, substs' with
    | [], substs' =>
      rw [wordsArgs] at h
      have hforget := forget_adt_of_wordsArgs did (by simpa only [List.nil_append] using h.symm)
      exact ⟨hforget.1.symm, hforget.2.symm⟩
    | arg :: substs, [] =>
      rw [wordsArgs.eq_def items true []] at h
      exact forget_adt_of_wordsArgs did (by simpa only [List.nil_append] using h)
    | arg :: substs, arg' :: substs' =>
      simp only [wordsArgs, if_true, List.nil_append, List.append_assoc] at h
      have harg := words_arg_append_inj arg arg' (wordsArgs_delimited substs _)
        (wordsArgs_delimited substs' _) h
      have hsubsts := wordsArgs_append_inj substs substs' harg.2
      rw [forget, forget, harg.1, hsubsts.1]
      exact ⟨rfl, hsubsts.2⟩
termination_by structural ty

theorem wordsEach_append_inj (elems elems' : List (Ty Item)) {rest rest' : List String}
    (hlength : elems.length = elems'.length)
    (h : wordsEach items elems ++ rest = wordsEach items elems' ++ rest') :
    forgetEach elems = forgetEach elems' ∧ rest = rest' := by
  match elems, elems', hlength with
  | [], [], _ => exact ⟨rfl, h⟩
  | ty :: elems, ty' :: elems', hlength =>
    rw [wordsEach, wordsEach, List.append_assoc, List.append_assoc] at h
    have hfirst := words_append_inj ty ty' h
    have helems := wordsEach_append_inj elems elems' (Nat.succ.inj hlength) hfirst.2
    rw [forgetEach, forgetEach, hfirst.1, helems.1]
    exact ⟨rfl, helems.2⟩
termination_by structural elems

theorem wordsArgs_append_inj (substs substs' : List (GenericArg Item)) {rest rest' : List String}
    (h : wordsArgs items false substs ++ "_end_" :: rest =
      wordsArgs items false substs' ++ "_end_" :: rest') :
    forgetArgs substs = forgetArgs substs' ∧ rest = rest' := by
  match substs, substs' with
  | [], [] => exact ⟨rfl, (List.cons.inj h).2⟩
  | [], _ :: _ => simp [wordsArgs] at h
  | _ :: _, [] => simp [wordsArgs] at h
  | arg :: substs, arg' :: substs' =>
    simp only [wordsArgs, Bool.false_eq_true, if_false, List.append_assoc,
      List.cons_append, List.nil_append] at h
    have harg := words_arg_append_inj arg arg' (wordsArgs_delimited substs _)
      (wordsArgs_delimited substs' _) (List.cons.inj h).2
    have hsubsts := wordsArgs_append_inj substs substs' harg.2
    rw [forgetArgs, forgetArgs, harg.1, hsubsts.1]
    exact ⟨rfl, hsubsts.2⟩
termination_by structural substs

theorem words_arg_append_inj (arg arg' : GenericArg Item) {rest rest' : List String}
    (hrest : Delimited rest) (hrest' : Delimited rest')
    (h : GenericArg.words items arg ++ rest = GenericArg.words items arg' ++ rest') :
    arg.forget = arg'.forget ∧ rest = rest' := by
  obtain ⟨word, tail, hword, rfl⟩ := hrest
  obtain ⟨word', tail', hword', rfl⟩ := hrest'
  match arg, arg' with
  | .type ty, .type ty' =>
    rw [GenericArg.words, GenericArg.words] at h
    have hty := words_append_inj ty ty' h
    rw [GenericArg.forget, GenericArg.forget, hty.1]
    exact ⟨rfl, hty.2⟩
  | .type ty, .lifetime _ => exact absurd h (ty.words_append_ne hword')
  | .type ty, .const _ => exact absurd h (ty.words_append_ne hword')
  | .lifetime _, .type ty' => exact absurd h.symm (ty'.words_append_ne hword)
  | .const _, .type ty' => exact absurd h.symm (ty'.words_append_ne hword)
  | .lifetime _, .lifetime _ => exact ⟨rfl, h⟩
  | .lifetime _, .const _ => exact ⟨rfl, h⟩
  | .const _, .lifetime _ => exact ⟨rfl, h⟩
  | .const _, .const _ => exact ⟨rfl, h⟩
termination_by structural arg

end

section Trace

variable (items)

mutual

/-- What is forgotten leaves no trace in the words. -/
theorem words_forget (ty : Ty Item) : ty.forget.words items = ty.words items := by
  match ty with
  | .prim _ => rw [forget]
  | .never => rw [forget]
  | .str => rw [forget]
  | .rawPtr ty _ => rw [forget, words, words, words_forget ty]
  | .ref _ ty _ => rw [forget, words, words, words_forget ty]
  | .slice ty => rw [forget, words, words, words_forget ty]
  | .array ty _ => rw [forget, words, words, words_forget ty]
  | .param _ _ => rw [forget, words, words]
  | .adt did [] => rw [forget, words, words]; rfl
  | .adt did (arg :: substs) =>
    rw [forget, words, words, wordsArgs, wordsArgs, words_arg_forget arg,
      wordsArgs_forgetArgs substs]
  | .tuple [] => rw [forget, forgetEach]
  | .tuple (first :: elems) =>
    rw [forget, forgetEach, words, words, words_forget first, wordsEach_forgetEach elems,
      length_forgetEach elems]
termination_by structural ty

theorem wordsEach_forgetEach (elems : List (Ty Item)) :
    wordsEach items (forgetEach elems) = wordsEach items elems := by
  match elems with
  | [] => rw [forgetEach]
  | ty :: elems => rw [forgetEach, wordsEach, wordsEach, words_forget ty,
      wordsEach_forgetEach elems]
termination_by structural elems

theorem length_forgetEach (elems : List (Ty Item)) : (forgetEach elems).length = elems.length := by
  match elems with
  | [] => rw [forgetEach]
  | ty :: elems => rw [forgetEach, List.length_cons, List.length_cons, length_forgetEach elems]
termination_by structural elems

theorem wordsArgs_forgetArgs (substs : List (GenericArg Item)) :
    wordsArgs items false (forgetArgs substs) = wordsArgs items false substs := by
  match substs with
  | [] => rw [forgetArgs]
  | arg :: substs => rw [forgetArgs, wordsArgs, wordsArgs, words_arg_forget arg,
      wordsArgs_forgetArgs substs]
termination_by structural substs

theorem words_arg_forget (arg : GenericArg Item) :
    GenericArg.words items arg.forget = GenericArg.words items arg := by
  match arg with
  | .type ty => rw [GenericArg.forget, GenericArg.words, GenericArg.words, words_forget ty]
  | .lifetime _ => rw [GenericArg.forget, GenericArg.words, GenericArg.words]
  | .const _ => rw [GenericArg.forget, GenericArg.words, GenericArg.words]
termination_by structural arg

end

/-- A word of a name: without a `$` and not like an item, or the name of an item. -/
inductive NameWord : String → Prop where
  | plain (word : String) (hseparator : '$' ∉ word.toList)
      (hletter : word.toList.head? ≠ some 'm') : NameWord word
  | item (did : Item) : NameWord (encodeItemName items did)

theorem nameWord_digits (number : Nat) : NameWord items (toString number) := by
  have hdigits : ∀ letter ∈ (toString number).toList, letter.isDigit = true := by
    intro letter hletter
    rw [toList_toString] at hletter
    exact Nat.isDigit_of_mem_toDigits (by decide) (by decide) hletter
  apply NameWord.plain
  · intro hmem
    exact absurd (hdigits _ hmem) (by decide)
  · intro hhead
    exact absurd (hdigits _ (List.mem_of_mem_head? hhead)) (by decide)

theorem nameWord_tuple (arity : Nat) : NameWord items ("tuple" ++ toString arity) := by
  apply NameWord.plain
  · rw [String.toList_append, List.mem_append, toList_toString]
    rintro (hmem | hmem)
    · exact absurd hmem (by decide)
    · exact absurd (Nat.isDigit_of_mem_toDigits (by decide) (by decide) hmem) (by decide)
  · rw [head?_append rfl]
    decide

theorem nameWord_param (name : ParamName) : NameWord items ("_" ++ name.text) := by
  apply NameWord.plain
  · rw [String.toList_append, List.mem_append]
    rintro (hmem | hmem)
    · exact absurd hmem (by decide)
    · exact name.plain hmem
  · rw [head?_append rfl]
    decide

theorem nameWord_separator (first : Bool) :
    ∀ word ∈ (if first then [] else ["_sep_"]), NameWord items word := by
  intro word hword
  cases first with
  | true => nomatch hword
  | false =>
    rw [List.mem_singleton.mp hword]
    exact .plain _ (by decide) (by decide)

theorem nameWord_keyword (key : Keyword) : NameWord items key.word :=
  .plain _ key.word_ne.2.2.2.2 key.word_ne.2.1

mutual

theorem nameWord_words (ty : Ty Item) : ∀ word ∈ ty.words items, NameWord items word := by
  intro word hword
  match ty with
  | .prim ty =>
    rw [words, List.mem_singleton] at hword
    exact hword ▸ nameWord_keyword items (.prim ty)
  | .never =>
    rw [words, List.mem_singleton] at hword
    exact hword ▸ nameWord_keyword items .never
  | .str =>
    rw [words, List.mem_singleton] at hword
    exact hword ▸ nameWord_keyword items .str
  | .rawPtr ty _ =>
    rw [words, List.mem_cons] at hword
    rcases hword with rfl | hword
    · exact nameWord_keyword items .rawPtr
    · exact nameWord_words ty word hword
  | .ref _ ty _ =>
    rw [words, List.mem_cons] at hword
    rcases hword with rfl | hword
    · exact nameWord_keyword items .ref
    · exact nameWord_words ty word hword
  | .slice ty =>
    rw [words, List.mem_cons] at hword
    rcases hword with rfl | hword
    · exact nameWord_keyword items .slice
    · exact nameWord_words ty word hword
  | .array ty len =>
    rw [words, List.mem_cons, List.mem_cons] at hword
    rcases hword with rfl | rfl | hword
    · exact nameWord_keyword items .array
    · exact nameWord_digits items len
    · exact nameWord_words ty word hword
  | .param _ name =>
    rw [words, List.mem_cons, List.mem_cons, List.mem_singleton] at hword
    rcases hword with rfl | rfl | rfl
    · exact nameWord_keyword items .param
    · exact nameWord_param items name
    · exact .plain _ (by decide) (by decide)
  | .tuple [] =>
    rw [words, List.mem_cons, List.mem_singleton] at hword
    rcases hword with rfl | rfl
    · exact nameWord_tuple items 0
    · exact .plain _ (by decide) (by decide)
  | .tuple (first :: elems) =>
    rw [words, List.mem_cons, List.mem_append] at hword
    rcases hword with rfl | hword | hword
    · exact nameWord_tuple items (elems.length + 1)
    · exact nameWord_words first word hword
    · exact nameWord_wordsEach elems word hword
  | .adt did substs =>
    rw [words, List.mem_cons, List.mem_cons, List.mem_append, List.mem_singleton] at hword
    rcases hword with rfl | rfl | hword | rfl
    · exact .item did
    · exact .plain _ (by decide) (by decide)
    · exact nameWord_wordsArgs true substs word hword
    · exact .plain _ (by decide) (by decide)
termination_by structural ty

theorem nameWord_wordsEach (elems : List (Ty Item)) :
    ∀ word ∈ wordsEach items elems, NameWord items word := by
  intro word hword
  match elems with
  | [] => rw [wordsEach] at hword; nomatch hword
  | ty :: elems =>
    rw [wordsEach, List.mem_append] at hword
    rcases hword with hword | hword
    · exact nameWord_words ty word hword
    · exact nameWord_wordsEach elems word hword
termination_by structural elems

theorem nameWord_wordsArgs (first : Bool) (substs : List (GenericArg Item)) :
    ∀ word ∈ wordsArgs items first substs, NameWord items word := by
  intro word hword
  match substs with
  | [] => rw [wordsArgs] at hword; nomatch hword
  | arg :: substs =>
    rw [wordsArgs, List.mem_append, List.mem_append] at hword
    rcases hword with hword | hword | hword
    · exact nameWord_separator items first word hword
    · exact nameWord_arg arg word hword
    · exact nameWord_wordsArgs false substs word hword
termination_by structural substs

theorem nameWord_arg (arg : GenericArg Item) :
    ∀ word ∈ GenericArg.words items arg, NameWord items word := by
  intro word hword
  match arg with
  | .type ty => exact nameWord_words ty word hword
  | .lifetime _ => rw [GenericArg.words] at hword; nomatch hword
  | .const _ => rw [GenericArg.words] at hword; nomatch hword
termination_by structural arg

end

variable {items}

/-- No word of a name begins with another one and the separator. -/
theorem NameWord.separable {word word' : String} (hword : NameWord items word)
    (hword' : NameWord items word') : Separable '$' word.toList word'.toList := by
  intro hbegins
  cases hword' with
  | plain _ hseparator _ =>
    exact hseparator (hbegins.subset (List.mem_append_right _ List.mem_cons_self))
  | item did' =>
    cases hword with
    | plain _ _ hletter =>
      obtain ⟨rest, hrest⟩ := hbegins
      have hhead := Head.head?_item items did'
      change (encodeItemName items did').toList.head? = some 'm' at hhead
      rw [← hrest, List.append_assoc] at hhead
      cases hlist : word.toList with
      | nil => rw [hlist] at hhead; exact absurd (Option.some.inj hhead) (by decide)
      | cons first tail => rw [hlist] at hhead hletter; exact hletter hhead
    | item did =>
      by_cases hdid : did = did'
      · have hlength := hbegins.length_le
        rw [hdid, List.length_append] at hlength
        exact absurd hlength (by simp)
      · rw [encodeItemName, encodeItemName, String.toList_append, String.toList_append,
          List.append_assoc, List.prefix_append_right_inj] at hbegins
        exact items.separable did did' hdid hbegins

end Trace

end Ty

/-- Two types have the same name just when they agree on what leaves a trace. -/
theorem encodePredicateUse_eq_iff (ty ty' : Ty Item) :
    encodePredicateUse items ty = encodePredicateUse items ty' ↔ ty.forget = ty'.forget := by
  rw [encodePredicateUse_eq, encodePredicateUse_eq]
  constructor
  · intro h
    have hjoined := congrArg String.toList h
    rw [toList_joinNames, toList_joinNames] at hjoined
    have hwords := joined_inj (by simp [ty.words_ne_nil items])
      (by simp [ty'.words_ne_nil items]) ?_ hjoined
    · have hsame := List.map_injective_iff.mpr (fun _ _ => String.toList_inj.mp) hwords
      exact (Ty.words_append_inj ty ty' (congrArg (· ++ []) hsame)).1
    · intro word hword word' hword'
      obtain ⟨name, hname, rfl⟩ := List.mem_map.mp hword
      obtain ⟨name', hname', rfl⟩ := List.mem_map.mp hword'
      have hname := ty.nameWord_words items name hname
      have hname' := ty'.nameWord_words items name' hname'
      exact ⟨hname.separable hname', hname'.separable hname⟩
  · intro h
    rw [← ty.words_forget items, h, ty'.words_forget items]

/-- The name of a type determines it, up to lifetimes and mutability. -/
def NameDetermines (ty ty' : Ty Item) : Prop :=
  encodePredicateUse items ty = encodePredicateUse items ty' → ty.eraseRegions = ty'.eraseRegions

/-- The name determines the type just when the constants among generic arguments and the
positions of type parameters do not matter. -/
theorem nameDetermines_iff (ty ty' : Ty Item) :
    NameDetermines items ty ty' ↔
      (ty.forget = ty'.forget → ty.eraseRegions = ty'.eraseRegions) := by
  rw [NameDetermines, encodePredicateUse_eq_iff]

end Reading

namespace Witness

/-- A crate with two items. -/
def twoItems : ItemNames Bool where
  identifier item := if item then "T" else "S"
  separable := by
    unfold Separable
    decide
  injective := by
    intro item item'
    revert item item'
    decide

def constStruct (value : ConstValue) : Ty Bool := .adt false [.const value]

example : encodePredicateUse twoItems (constStruct 3) = "m_S$_beg_$_end_" := by decide

theorem constStruct_not_nameDetermines :
    ¬ NameDetermines twoItems (constStruct 3) (constStruct 4) := by
  intro h
  have heq := h rfl
  rw [constStruct, constStruct, Ty.eraseRegions, Ty.eraseRegions] at heq
  simp [Ty.eraseArgs, GenericArg.eraseRegions] at heq

end Witness

end Prusti.Encoder

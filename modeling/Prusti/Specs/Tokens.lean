/-
Token trees, and the operators the preparser looks for in them.
-/
import Mathlib.Data.List.Infix

namespace Prusti.Specs

variable {stream : TokenStream} {operator : String}

inductive Delimiter where
  | parenthesis
  | brace
  | bracket
  | none
deriving Repr, DecidableEq

/-- Token trees.  Punctuation is one token per character. -/
inductive TokenTree where
  | group (delimiter : Delimiter) (stream : List TokenTree)
  | ident (name : String)
  | punct (char : Char)
  | literal (text : String)
deriving Repr

abbrev TokenStream := List TokenTree

namespace TokenTree

/-- The token is this punctuation character. -/
def isPunct (char : Char) : TokenTree → Bool
  | punct char' => char' == char
  | _ => false

@[simp] theorem isPunct_eq_true_iff {char : Char} {token : TokenTree} :
    token.isPunct char = true ↔ token = .punct char := by
  cases token <;> simp [isPunct]

mutual

/-- The number of tokens, those in groups included. -/
def size : TokenTree → Nat
  | group _ stream => 1 + streamSize stream
  | _ => 1

def streamSize : TokenStream → Nat
  | [] => 0
  | token :: rest => token.size + streamSize rest

end

@[simp] theorem size_group (delimiter : Delimiter) (stream : TokenStream) :
    (group delimiter stream).size = 1 + streamSize stream := rfl

@[simp] theorem size_ident (name : String) : (ident name).size = 1 := by
  simp [size]

theorem size_pos (token : TokenTree) : 0 < token.size := by
  cases token <;> simp only [size] <;> omega

@[simp] theorem streamSize_nil : streamSize [] = 0 := rfl

@[simp] theorem streamSize_cons (token : TokenTree) (rest : TokenStream) :
    streamSize (token :: rest) = token.size + streamSize rest := rfl

@[simp] theorem streamSize_append (left right : TokenStream) :
    streamSize (left ++ right) = streamSize left + streamSize right := by
  induction left with
  | nil => simp
  | cons token left ih => simp [ih, Nat.add_assoc]

theorem streamSize_eq_zero_iff : streamSize stream = 0 ↔ stream = [] := by
  cases stream with
  | nil => simp
  | cons token stream =>
    have hpos := token.size_pos
    simp only [streamSize_cons, reduceCtorEq, iff_false]
    omega

end TokenTree

/-- Does the given stream contain this operator at the offset? -/
def peekOperatorStreamOffset (stream : TokenStream) (operator : String) (offset : Nat) : Bool :=
  operator.toList.zipIdx.all fun item =>
    stream[item.2 + offset]?.any fun token => token.isPunct item.1

/-- Does the input start with this operator? -/
def peekOperator (operator : String) (tokens : TokenStream) : Bool :=
  peekOperatorStreamOffset tokens operator 0

/-- Does the given operator appear in the stream at top level? -/
def containsOperator (stream : TokenStream) (operator : String) : Bool :=
  (List.range stream.length).any fun offset =>
    peekOperatorStreamOffset stream operator offset

/-- The tokens of an operator. -/
def operatorTokens (operator : String) : TokenStream := operator.toList.map .punct

private theorem zipIdx_all_iff (stream : TokenStream) (offset : Nat) (letters : List Char)
    (start : Nat) :
    ((letters.zipIdx start).all fun item =>
      stream[item.2 + offset]?.any fun token => token.isPunct item.1) = true ↔
      letters.map TokenTree.punct <+: stream.drop (start + offset) := by
  induction letters generalizing start with
  | nil => simp
  | cons c letters ih =>
    rw [List.zipIdx_cons, List.all_cons, Bool.and_eq_true, ih, List.map_cons]
    cases hget : stream[start + offset]? with
    | none =>
      rw [List.getElem?_eq_none_iff] at hget
      simp [List.drop_eq_nil_of_le hget]
    | some token =>
      obtain ⟨hlt, htoken⟩ := List.getElem?_eq_some_iff.mp hget
      rw [List.drop_eq_getElem_cons hlt, htoken, List.cons_prefix_cons,
        Option.any_some, TokenTree.isPunct_eq_true_iff, eq_comm, Nat.add_right_comm]

theorem peekOperatorStreamOffset_iff {offset : Nat} :
    peekOperatorStreamOffset stream operator offset = true ↔
      operatorTokens operator <+: stream.drop offset := by
  rw [peekOperatorStreamOffset, zipIdx_all_iff, Nat.zero_add]
  rfl

theorem peekOperator_iff {tokens : TokenStream} :
    peekOperator operator tokens = true ↔ operatorTokens operator <+: tokens := by
  rw [peekOperator, peekOperatorStreamOffset_iff, List.drop_zero]

theorem operatorTokens_ne_nil (h : operator.toList ≠ []) : operatorTokens operator ≠ [] := by
  rw [operatorTokens, Ne, List.map_eq_nil_iff]
  exact h

theorem punct_mem_operatorTokens_iff {c : Char} :
    .punct c ∈ operatorTokens operator ↔ c ∈ operator.toList := by
  simp [operatorTokens]

theorem containsOperator_iff (h : operator.toList ≠ []) :
    containsOperator stream operator = true ↔ operatorTokens operator <:+: stream := by
  simp only [containsOperator, List.any_eq_true, List.mem_range, peekOperatorStreamOffset_iff,
    List.infix_iff_prefix_suffix]
  constructor
  · rintro ⟨offset, _, hbegins⟩
    exact ⟨stream.drop offset, hbegins, List.drop_suffix _ _⟩
  · rintro ⟨back, hbegins, front, rfl⟩
    have hback : back ≠ [] := by
      rintro rfl
      exact operatorTokens_ne_nil h (List.prefix_nil.mp hbegins)
    refine ⟨front.length, ?_, by rwa [List.drop_left]⟩
    have hpos := List.length_pos_iff.mpr hback
    rw [List.length_append]
    omega

/-- An operator at the start of two streams lies in the first one, or begins with it. -/
theorem peekOperator_append {front back : TokenStream}
    (h : peekOperator operator (front ++ back) = true) :
    peekOperator operator front = true ∨
      ∃ rest, rest ≠ [] ∧ operatorTokens operator = front ++ rest := by
  rw [peekOperator_iff] at h ⊢
  rcases List.prefix_or_prefix_of_prefix h (List.prefix_append front back) with
    h | ⟨rest, hrest⟩
  · exact .inl h
  · by_cases hne : rest = []
    · rw [hne, List.append_nil] at hrest
      exact .inl (hrest ▸ List.prefix_rfl)
    · exact .inr ⟨rest, hne, hrest.symm⟩

end Prusti.Specs

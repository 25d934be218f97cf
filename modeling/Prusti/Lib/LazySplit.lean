/-
Texts cut into captures, each followed by a literal, and the cut that takes
every capture as short as possible, the first ones first.
-/
import Mathlib.Data.List.Basic

namespace Prusti.Lib

universe u

variable {α : Type u}

variable {captures literals : List (List α)} {text : List α}

/-- The text is made of the captures, each followed by its literal. -/
inductive IsSplit : List (List α) → List (List α) → List α → Prop where
  | nil : IsSplit [] [] []
  | cons {literals captures : List (List α)} {text : List α}
      (literal capture : List α) (h : IsSplit literals captures text) :
      IsSplit (literal :: literals) (capture :: captures) (capture ++ (literal ++ text))

/-- Where the captures first differ, the left one is shorter. -/
inductive LazyLe : List (List α) → List (List α) → Prop where
  | nil : LazyLe [] []
  | shorter {capture capture' : List α} {captures captures' : List (List α)}
      (h : capture.length < capture'.length) :
      LazyLe (capture :: captures) (capture' :: captures')
  | same (capture : List α) {captures captures' : List (List α)} (h : LazyLe captures captures') :
      LazyLe (capture :: captures) (capture :: captures')

/-- The captures that are found when each is taken as short as possible. -/
structure IsLazySplit (literals captures : List (List α)) (text : List α) : Prop where
  split : IsSplit literals captures text
  least : ∀ other, IsSplit literals other text → LazyLe captures other

theorem isSplit_nil_iff : IsSplit [] captures text ↔ captures = [] ∧ text = [] := by
  constructor
  · intro h
    cases h
    exact ⟨rfl, rfl⟩
  · rintro ⟨rfl, rfl⟩
    exact .nil

theorem isSplit_cons_iff {literal : List α} :
    IsSplit (literal :: literals) captures text ↔
      ∃ capture rest tail, captures = capture :: rest ∧
        text = capture ++ (literal ++ tail) ∧ IsSplit literals rest tail := by
  constructor
  · intro h
    cases h with
    | cons _ capture h => exact ⟨capture, _, _, rfl, rfl, h⟩
  · rintro ⟨capture, rest, tail, rfl, rfl, h⟩
    exact .cons literal capture h

theorem IsSplit.length_eq (h : IsSplit literals captures text) :
    captures.length = literals.length := by
  induction h with
  | nil => rfl
  | cons literal capture _ ih => rw [List.length_cons, List.length_cons, ih]

/-- No capture is longer than the text. -/
theorem IsSplit.length_capture_le (h : IsSplit literals captures text) :
    ∀ capture ∈ captures, capture.length ≤ text.length := by
  induction h with
  | nil => nofun
  | cons literal capture _ ih =>
    intro other hother
    simp only [List.length_append]
    rcases List.mem_cons.mp hother with rfl | hother
    · omega
    · have hle := ih other hother
      omega

theorem LazyLe.antisymm {captures' : List (List α)} (h : LazyLe captures captures')
    (h' : LazyLe captures' captures) :
    captures = captures' := by
  induction h with
  | nil => rfl
  | shorter hlt =>
    cases h' with
    | shorter hlt' => exact absurd hlt' (Nat.lt_asymm hlt)
    | same capture _ => exact absurd hlt (Nat.lt_irrefl _)
  | same capture _ ih =>
    cases h' with
    | shorter hlt => exact absurd hlt (Nat.lt_irrefl _)
    | same _ h' => rw [ih h']

/-- There is only one such cut. -/
theorem IsLazySplit.unique {captures' : List (List α)} (h : IsLazySplit literals captures text)
    (h' : IsLazySplit literals captures' text) : captures = captures' :=
  (h.least captures' h'.split).antisymm (h'.least captures h.split)

/-- A shortest first capture, followed by a lazy cut of the rest. -/
theorem IsLazySplit.cons {literal capture tail : List α} (h : IsLazySplit literals captures tail)
    (hshortest : ∀ capture' tail', capture ++ (literal ++ tail) =
      capture' ++ (literal ++ tail') → capture'.length < capture.length →
        ∀ captures', ¬ IsSplit literals captures' tail') :
    IsLazySplit (literal :: literals) (capture :: captures) (capture ++ (literal ++ tail)) where
  split := .cons literal capture h.split
  least other hother := by
    obtain ⟨capture', rest, tail', rfl, htext, hrest⟩ := isSplit_cons_iff.mp hother
    rcases Nat.lt_trichotomy capture.length capture'.length with hlt | heq | hgt
    · exact .shorter hlt
    · obtain ⟨rfl, hafter⟩ := List.append_inj htext heq
      cases List.append_cancel_left hafter
      exact .same capture (h.least rest hrest)
    · exact absurd hrest (hshortest capture' tail' htext hgt rest)

end Prusti.Lib

/-
Words that are joined by a separator, and when they can be read off again.
-/
import Mathlib.Data.List.Infix

namespace Prusti.Lib

universe u

variable {α : Type u} {sep : α}

/-- The words, with the separator between any two of them. -/
def joined (sep : α) : List (List α) → List α
  | [] => []
  | [word] => word
  | word :: rest => word ++ sep :: joined sep rest

theorem joined_cons_cons (word word' : List α) (rest : List (List α)) :
    joined sep (word :: word' :: rest) = word ++ sep :: joined sep (word' :: rest) := rfl

theorem joined_append {left right : List (List α)} (hleft : left ≠ []) (hright : right ≠ []) :
    joined sep (left ++ right) = joined sep left ++ sep :: joined sep right := by
  induction left with
  | nil => exact absurd rfl hleft
  | cons word left ih =>
    cases left with
    | nil =>
      obtain ⟨first, right, rfl⟩ := List.exists_cons_of_ne_nil hright
      rfl
    | cons word' left =>
      have ih := ih (List.cons_ne_nil _ _)
      rw [List.cons_append] at ih
      rw [List.cons_append, List.cons_append, joined_cons_cons, ih, joined_cons_cons,
        List.append_assoc, List.cons_append]

/-- Words that are joined from words. -/
theorem joined_flatMap {β : Type u} {parts : List β} {words : β → List (List α)}
    (h : ∀ part ∈ parts, words part ≠ []) :
    joined sep (parts.flatMap words) =
      joined sep (parts.map fun part => joined sep (words part)) := by
  induction parts with
  | nil => rfl
  | cons part parts ih =>
    have hpart := h part List.mem_cons_self
    have hparts := fun other hother => h other (List.mem_cons_of_mem part hother)
    cases parts with
    | nil => simp [joined]
    | cons next parts =>
      have hrest : (next :: parts).flatMap words ≠ [] := by
        rw [List.flatMap_cons]
        exact List.append_ne_nil_of_left_ne_nil (hparts next List.mem_cons_self) _
      rw [List.flatMap_cons, joined_append hpart hrest, ih hparts]
      rfl

/-- What is appended to the last word is at the end. -/
theorem joined_concat_append (front : List (List α)) (last back : List α) :
    joined sep (front ++ [last ++ back]) = joined sep (front ++ [last]) ++ back := by
  cases front with
  | nil => rfl
  | cons word front =>
    rw [joined_append (List.cons_ne_nil _ _) (List.cons_ne_nil _ _),
      joined_append (List.cons_ne_nil _ _) (List.cons_ne_nil _ _), List.append_assoc]
    rfl

theorem mem_joined {words : List (List α)} {letter : α} (h : letter ∈ joined sep words) :
    letter = sep ∨ ∃ word ∈ words, letter ∈ word := by
  induction words with
  | nil => cases h
  | cons word words ih =>
    cases words with
    | nil => exact .inr ⟨word, List.mem_cons_self, h⟩
    | cons next words =>
      rw [joined_cons_cons, List.mem_append, List.mem_cons] at h
      rcases h with hword | hsep | hrest
      · exact .inr ⟨word, List.mem_cons_self, hword⟩
      · exact .inl hsep
      · rcases ih hrest with hsep | ⟨other, hother, hletter⟩
        · exact .inl hsep
        · exact .inr ⟨other, List.mem_cons_of_mem _ hother, hletter⟩

/-- No word begins with another word and the separator. -/
def Separable (sep : α) (word word' : List α) : Prop := ¬ word ++ [sep] <+: word'

/-- Two words in front of a separator are the same. -/
theorem append_separator_inj {word word' rest rest' : List α}
    (hseparable : Separable sep word word') (hseparable' : Separable sep word' word)
    (h : word ++ sep :: rest = word' ++ sep :: rest') : word = word' ∧ rest = rest' := by
  rcases List.append_eq_append_iff.mp h with ⟨between, hword, hrest⟩ | ⟨between, hword, hrest⟩
  · cases between with
    | nil =>
      rw [List.append_nil] at hword
      exact ⟨hword.symm, (List.cons.inj hrest).2⟩
    | cons first between =>
      obtain ⟨rfl, _⟩ := List.cons.inj hrest
      exact absurd ⟨between, by rw [hword]; simp⟩ hseparable
  · cases between with
    | nil =>
      rw [List.append_nil] at hword
      exact ⟨hword, ((List.cons.inj hrest).2).symm⟩
    | cons first between =>
      obtain ⟨rfl, _⟩ := List.cons.inj hrest
      exact absurd ⟨between, by rw [hword]; simp⟩ hseparable'

/-- Separable words can be read off again. -/
theorem joined_inj {words words' : List (List α)} (hne : words ≠ []) (hne' : words' ≠ [])
    (hseparable : ∀ word ∈ words, ∀ word' ∈ words',
      Separable sep word word' ∧ Separable sep word' word)
    (h : joined sep words = joined sep words') : words = words' := by
  induction words generalizing words' with
  | nil => exact absurd rfl hne
  | cons word rest ih =>
    obtain ⟨word', rest', rfl⟩ := List.exists_cons_of_ne_nil hne'
    have hfirst := hseparable word List.mem_cons_self word' List.mem_cons_self
    cases rest with
    | nil =>
      cases rest' with
      | nil => exact congrArg (fun word => [word]) h
      | cons second rest' =>
        rw [joined_cons_cons] at h
        exact absurd ⟨_, (List.append_assoc _ _ _).trans h.symm⟩ hfirst.2
    | cons second rest =>
      rw [joined_cons_cons] at h
      cases rest' with
      | nil => exact absurd ⟨_, (List.append_assoc _ _ _).trans h⟩ hfirst.1
      | cons second' rest' =>
        rw [joined_cons_cons] at h
        obtain ⟨rfl, hrest⟩ := append_separator_inj hfirst.1 hfirst.2 h
        have hrest := ih (List.cons_ne_nil _ _) (List.cons_ne_nil _ _)
          (fun other hother other' hother' => hseparable other
            (List.mem_cons_of_mem _ hother) other' (List.mem_cons_of_mem _ hother')) hrest
        rw [hrest]

theorem separable_of_not_mem {word word' : List α} (h : sep ∉ word') : Separable sep word word' :=
  fun hpre => h (hpre.subset (List.mem_append_right _ (List.mem_singleton_self sep)))

/-- A single letter other than the separator, or a word between two separators. -/
def Delimited (sep : α) (word : List α) : Prop :=
  (∃ letter, letter ≠ sep ∧ word = [letter]) ∨ ∃ inner, sep ∉ inner ∧ word = sep :: (inner ++ [sep])

theorem Delimited.append_inj {word word' rest rest' : List α} (h : Delimited sep word)
    (h' : Delimited sep word') (heq : word ++ rest = word' ++ rest') :
    word = word' ∧ rest = rest' := by
  rcases h with ⟨letter, hletter, rfl⟩ | ⟨inner, hinner, rfl⟩
  · rcases h' with ⟨letter', -, rfl⟩ | ⟨inner', -, rfl⟩
    · obtain ⟨rfl, hrest⟩ := List.cons.inj heq
      exact ⟨rfl, hrest⟩
    · exact absurd (List.cons.inj heq).1 hletter
  · rcases h' with ⟨letter', hletter', rfl⟩ | ⟨inner', hinner', rfl⟩
    · exact absurd (List.cons.inj heq).1.symm hletter'
    · have htail : inner ++ sep :: rest = inner' ++ sep :: rest' := by simpa using heq
      obtain ⟨rfl, hrest⟩ := append_separator_inj (separable_of_not_mem hinner')
        (separable_of_not_mem hinner) htail
      exact ⟨rfl, hrest⟩

/-- A code of delimited words can be read off from the left. -/
theorem flatMap_inj_of_delimited {β : Type*} {code : β → List α} {parts parts' : List β}
    (hcode : ∀ part ∈ parts, Delimited sep (code part))
    (hcode' : ∀ part ∈ parts', Delimited sep (code part))
    (hinj : ∀ part ∈ parts, ∀ part' ∈ parts', code part = code part' → part = part')
    (h : parts.flatMap code = parts'.flatMap code) : parts = parts' := by
  have hne : ∀ {part}, Delimited sep (code part) → code part ≠ [] := by
    rintro part (⟨letter, -, hpart⟩ | ⟨inner, -, hpart⟩) <;>
      exact fun hempty => List.cons_ne_nil _ _ (hpart.symm.trans hempty)
  induction parts generalizing parts' with
  | nil =>
    cases parts' with
    | nil => rfl
    | cons part' parts' =>
      have hempty := (List.append_eq_nil_iff.mp h.symm).1
      exact absurd hempty (hne (hcode' part' List.mem_cons_self))
  | cons part parts ih =>
    obtain ⟨hpart, hparts⟩ := List.forall_mem_cons.mp hcode
    cases parts' with
    | nil => exact absurd (List.append_eq_nil_iff.mp h).1 (hne hpart)
    | cons part' parts' =>
      obtain ⟨hpart', hparts'⟩ := List.forall_mem_cons.mp hcode'
      rw [List.flatMap_cons, List.flatMap_cons] at h
      obtain ⟨heq, hrest⟩ := hpart.append_inj hpart' h
      rw [hinj part List.mem_cons_self part' List.mem_cons_self heq]
      refine congrArg _ (ih hparts hparts' (fun other hother other' hother' => ?_) hrest)
      exact hinj other (List.mem_cons_of_mem _ hother) other' (List.mem_cons_of_mem _ hother')

end Prusti.Lib

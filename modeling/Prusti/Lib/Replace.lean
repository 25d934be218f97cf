/-
Replacing the matches of patterns in a text from left to right, none of them overlapping.
-/
import Mathlib.Data.List.Infix

namespace Prusti.Lib

universe u

variable {α : Type u}

section Scan

variable (find : List α → Option (Nat × List α))

/-- Go through a text.  A match at the front has a length and a replacement, and `skip`
letters are left of the last match. -/
def scan (skip : Nat) : List α → List α
  | [] => []
  | letter :: rest =>
    match skip with
    | skip + 1 => scan skip rest
    | 0 =>
      match find (letter :: rest) with
      | some (length, image) => image ++ scan (length - 1) rest
      | none => letter :: scan 0 rest

theorem scan_length (text rest : List α) :
    scan find text.length (text ++ rest) = scan find 0 rest := by
  induction text with
  | nil => rfl
  | cons letter text ih =>
    rw [List.length_cons, List.cons_append, scan]
    exact ih

variable {find}

theorem scan_of_some {text image rest : List α} (hne : text ≠ [])
    (h : find (text ++ rest) = some (text.length, image)) :
    scan find 0 (text ++ rest) = image ++ scan find 0 rest := by
  obtain ⟨letter, text, rfl⟩ := List.exists_cons_of_ne_nil hne
  rw [List.cons_append] at h
  rw [List.cons_append, scan, h]
  exact congrArg _ (scan_length find text rest)

/-- A text in which no match begins stays as it is. -/
theorem scan_of_none {text rest : List α}
    (h : ∀ tail, tail ≠ [] → tail <:+ text → find (tail ++ rest) = none) :
    scan find 0 (text ++ rest) = text ++ scan find 0 rest := by
  induction text with
  | nil => rfl
  | cons letter text ih =>
    have hself := h (letter :: text) (List.cons_ne_nil _ _) (List.suffix_refl _)
    have htail := ih fun tail hne htail => h tail hne (htail.trans (List.suffix_cons _ _))
    rw [List.cons_append] at hself
    rw [List.cons_append, scan, hself, List.cons_append, ← htail]

end Scan

variable [BEq α]

/-- The first of the patterns that the text begins with. -/
def findPattern (entries : List (List α × List α)) (text : List α) : Option (Nat × List α) :=
  (entries.find? fun entry => entry.1.isPrefixOf text).map fun entry => (entry.1.length, entry.2)

/-- Replace all matches of several patterns in one pass. -/
def replaceTogether (entries : List (List α × List α)) (text : List α) : List α :=
  scan (findPattern entries) 0 text

/-- Replace all matches of a pattern that is not empty. -/
def replace (pattern image : List α) (text : List α) : List α :=
  replaceTogether [(pattern, image)] text

section Single

variable [LawfulBEq α] {pattern image : List α}

theorem replace_append (hne : pattern ≠ []) (rest : List α) :
    replace pattern image (pattern ++ rest) = image ++ replace pattern image rest := by
  refine scan_of_some hne ?_
  simp [findPattern]

theorem replace_cons {letter : α} {rest : List α} (h : ¬ pattern <+: letter :: rest) :
    replace pattern image (letter :: rest) = letter :: replace pattern image rest := by
  have hnone : findPattern [(pattern, image)] (letter :: rest) = none := by
    simpa [findPattern] using h
  rw [replace, replaceTogether, scan, hnone]
  rfl

theorem replace_letter (key : α) (text : List α) :
    replace [key] image text =
      text.flatMap fun letter => if letter == key then image else [letter] := by
  induction text with
  | nil => rfl
  | cons letter text ih =>
    rw [List.flatMap_cons, ← ih]
    by_cases heq : letter = key
    · subst heq
      rw [BEq.rfl, if_pos rfl]
      exact replace_append (List.cons_ne_nil _ _) text
    · rw [beq_eq_false_iff_ne.mpr heq, if_neg Bool.false_ne_true]
      refine replace_cons ?_
      rw [List.cons_prefix_cons]
      exact fun h => heq h.1.symm

/-- Letters are replaced one after the other, where no image contains a letter that is
replaced later. -/
theorem foldl_replace_letters {entries : List (α × List α)}
    (hfresh : entries.Pairwise fun entry later => later.1 ∉ entry.2) (text : List α) :
    entries.foldl (fun text entry => replace [entry.1] entry.2 text) text =
      text.flatMap fun letter => (entries.lookup letter).getD [letter] := by
  induction entries generalizing text with
  | nil => simp
  | cons entry entries ih =>
    obtain ⟨key, image⟩ := entry
    obtain ⟨hentry, hentries⟩ := List.pairwise_cons.mp hfresh
    have himage : image.flatMap (fun letter => (entries.lookup letter).getD [letter]) = image := by
      have hnone : ∀ letter ∈ image, (entries.lookup letter).getD [letter] = [letter] := by
        intro letter hletter
        have hlookup : entries.lookup letter = none := by
          rw [List.lookup_eq_none_iff]
          intro later hlater
          rw [bne_iff_ne]
          rintro rfl
          exact hentry later hlater hletter
        rw [hlookup]
        rfl
      rw [List.flatMap_congr hnone]
      simp
    rw [List.foldl_cons, ih hentries, replace_letter, List.flatMap_assoc]
    refine List.flatMap_congr fun letter _ => ?_
    rw [List.lookup_cons]
    cases letter == key with
    | true => exact himage
    | false => simp

end Single

end Prusti.Lib

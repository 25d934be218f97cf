/-
The encoding of identifiers: thirteen replacements, one after the other, after which
texts without dollars can still be told apart.
-/
import Prusti.Lib.Joined
import Prusti.Lib.Replace

namespace Prusti.Encoder

open Prusti.Lib

/-- What is replaced, in this order. -/
def identifierReplacements : List (String × String) :=
  [("::", "$$"), ("#", "$sharp$"), ("<", "$openang$"), (">", "$closeang$"),
    ("(", "$openrou$"), (")", "$closerou$"), ("[", "$opensqu$"), ("]", "$closesqu$"),
    ("\x7b", "$opencur$"), ("\x7d", "$closecur$"), (",", "$comma$"), (";", "$semic$"),
    (" ", "$space$")]

def encodeIdentifier (ident : String) : String :=
  identifierReplacements.foldl (fun ident entry =>
    String.ofList (replace entry.1.toList entry.2.toList ident.toList)) ident

/-- The replacements of single letters, which are all but the first one. -/
def letterReplacements : List (Char × List Char) :=
  identifierReplacements.tail.flatMap fun entry =>
    entry.1.toList.map fun letter => (letter, entry.2.toList)

theorem toList_encodeIdentifier (ident : String) :
    (encodeIdentifier ident).toList =
      (replace "::".toList "$$".toList ident.toList).flatMap fun letter =>
        (letterReplacements.lookup letter).getD [letter] := by
  have hlists : ∀ (entries : List (String × String)) (ident : String),
      (entries.foldl (fun ident entry =>
        String.ofList (replace entry.1.toList entry.2.toList ident.toList)) ident).toList =
      (entries.map fun entry => (entry.1.toList, entry.2.toList)).foldl
        (fun text entry => replace entry.1 entry.2 text) ident.toList := by
    intro entries
    induction entries with
    | nil => exact fun _ => rfl
    | cons entry entries ih =>
      intro ident
      rw [List.foldl_cons, ih, String.toList_ofList, List.map_cons, List.foldl_cons]
  have hentries : (identifierReplacements.map fun entry => (entry.1.toList, entry.2.toList)) =
      ("::".toList, "$$".toList) :: letterReplacements.map fun entry => ([entry.1], entry.2) := by
    rfl
  have hfresh : letterReplacements.Pairwise fun entry later => later.1 ∉ entry.2 := by decide
  rw [encodeIdentifier, hlists, hentries, List.foldl_cons, List.foldl_map]
  exact foldl_replace_letters hfresh _

/-- The parts of a text: two colons in a row, for which `none` stands, and single letters. -/
def identifierParts : List Char → List (Option Char)
  | [] => []
  | ':' :: ':' :: rest => none :: identifierParts rest
  | letter :: rest => some letter :: identifierParts rest

/-- The text of a part, and what the encoding makes of it. -/
def partText : Option Char → List Char
  | none => "::".toList
  | some letter => [letter]

def partImage : Option Char → List Char
  | none => "$$".toList
  | some letter => (letterReplacements.lookup letter).getD [letter]

theorem flatMap_partText (text : List Char) : (identifierParts text).flatMap partText = text := by
  fun_induction identifierParts text with
  | case1 => rfl
  | case2 rest ih => exact congrArg (fun text => ':' :: ':' :: text) ih
  | case3 letter rest _ ih => exact congrArg (letter :: ·) ih

theorem toList_encodeIdentifier_eq (ident : String) :
    (encodeIdentifier ident).toList = (identifierParts ident.toList).flatMap partImage := by
  rw [toList_encodeIdentifier]
  generalize ident.toList = text
  fun_induction identifierParts text with
  | case1 => rfl
  | case2 rest ih =>
    have hreplace : replace "::".toList "$$".toList ("::".toList ++ rest) =
        "$$".toList ++ replace "::".toList "$$".toList rest :=
      replace_append (by decide) rest
    rw [List.flatMap_cons, ← ih]
    exact (congrArg _ hreplace).trans (List.flatMap_append)
  | case3 letter rest hcolons ih =>
    have hreplace : replace "::".toList "$$".toList (letter :: rest) =
        letter :: replace "::".toList "$$".toList rest := by
      refine replace_cons ?_
      rintro ⟨back, hback⟩
      obtain ⟨rfl, hrest⟩ := List.cons.inj hback
      exact hcolons back rfl hrest.symm
    rw [hreplace, List.flatMap_cons, List.flatMap_cons, ih]
    rfl

/-- The images of the letters are words between dollars, and no two of them are the same. -/
theorem letterReplacements_delimited : ∀ entry ∈ letterReplacements,
    '$' ∉ (entry.2.drop 1).dropLast ∧ entry.2 = '$' :: ((entry.2.drop 1).dropLast ++ ['$']) := by
  decide

theorem letterReplacements_inj : ∀ entry ∈ letterReplacements, ∀ entry' ∈ letterReplacements,
    entry.2 = entry'.2 → entry.1 = entry'.1 := by
  decide

theorem letterReplacements_ne_dollars : ∀ entry ∈ letterReplacements, entry.2 ≠ "$$".toList := by
  decide

/-- A letter stays as it is, or it is replaced. -/
theorem partImage_letter (letter : Char) :
    partImage (some letter) = [letter] ∨
      (letter, partImage (some letter)) ∈ letterReplacements := by
  rw [partImage]
  cases hlookup : letterReplacements.lookup letter with
  | none => exact .inl rfl
  | some image =>
    right
    obtain ⟨front, back, heq, -⟩ := List.lookup_eq_some_iff.mp hlookup
    rw [heq]
    exact List.mem_append_right _ List.mem_cons_self

theorem delimited_partImage {part : Option Char} (hpart : part ≠ some '$') :
    Delimited '$' (partImage part) := by
  cases part with
  | none => exact .inr ⟨[], List.not_mem_nil, rfl⟩
  | some letter =>
    rcases partImage_letter letter with hkept | hreplaced
    · rw [hkept]
      exact .inl ⟨letter, fun heq => hpart (congrArg some heq), rfl⟩
    · exact .inr ⟨_, letterReplacements_delimited _ hreplaced⟩

/-- A letter that stays is not the image of another part. -/
theorem partImage_ne_letter {letter letter' : Char} (hletter : letter ≠ '$')
    (hreplaced : (letter', partImage (some letter')) ∈ letterReplacements) :
    partImage (some letter') ≠ [letter] := by
  intro heq
  have hwhole := (letterReplacements_delimited _ hreplaced).2
  rw [heq] at hwhole
  exact hletter (List.cons.inj hwhole).1

theorem partImage_inj {part part' : Option Char} (hpart : part ≠ some '$')
    (hpart' : part' ≠ some '$') (h : partImage part = partImage part') : part = part' := by
  cases part with
  | none =>
    cases part' with
    | none => rfl
    | some letter' =>
      rcases partImage_letter letter' with hkept | hreplaced
      · rw [hkept] at h
        cases h
      · exact absurd h.symm (letterReplacements_ne_dollars _ hreplaced)
  | some letter =>
    have hne : letter ≠ '$' := fun heq => hpart (congrArg some heq)
    cases part' with
    | none =>
      rcases partImage_letter letter with hkept | hreplaced
      · rw [hkept] at h
        cases h
      · exact absurd h (letterReplacements_ne_dollars _ hreplaced)
    | some letter' =>
      have hne' : letter' ≠ '$' := fun heq => hpart' (congrArg some heq)
      rcases partImage_letter letter with hkept | hreplaced
      · rcases partImage_letter letter' with hkept' | hreplaced'
        · rw [hkept, hkept'] at h
          exact congrArg some (List.cons.inj h).1
        · exact absurd (h.symm.trans hkept) (partImage_ne_letter hne hreplaced')
      · rcases partImage_letter letter' with hkept' | hreplaced'
        · exact absurd (h.trans hkept') (partImage_ne_letter hne' hreplaced)
        · exact congrArg some (letterReplacements_inj _ hreplaced _ hreplaced' h)

theorem ne_dollar_of_mem_parts {text : List Char} (htext : '$' ∉ text) :
    ∀ part ∈ identifierParts text, part ≠ some '$' := by
  rintro part hpart rfl
  apply htext
  rw [← flatMap_partText text]
  exact List.mem_flatMap.mpr ⟨some '$', hpart, List.mem_singleton_self '$'⟩

/-- Texts without dollars are encoded to the same identifier only if they are the same. -/
theorem encodeIdentifier_eq_iff (ident ident' : String) (hident : '$' ∉ ident.toList)
    (hident' : '$' ∉ ident'.toList) :
    encodeIdentifier ident = encodeIdentifier ident' ↔ ident = ident' := by
  refine ⟨fun h => ?_, congrArg encodeIdentifier⟩
  have hdollar := ne_dollar_of_mem_parts hident
  have hdollar' := ne_dollar_of_mem_parts hident'
  have himages := congrArg String.toList h
  rw [toList_encodeIdentifier_eq, toList_encodeIdentifier_eq] at himages
  have hparts : identifierParts ident.toList = identifierParts ident'.toList :=
    flatMap_inj_of_delimited (fun part hpart => delimited_partImage (hdollar part hpart))
      (fun part hpart => delimited_partImage (hdollar' part hpart))
      (fun part hpart part' hpart' =>
        partImage_inj (hdollar part hpart) (hdollar' part' hpart')) himages
  have htexts := congrArg (fun parts => parts.flatMap partText) hparts
  simp only [flatMap_partText] at htexts
  exact String.toList_inj.mp htexts

theorem encodeIdentifier_eq_iff_colons :
    encodeIdentifier "a::b" = encodeIdentifier "a: :b" ↔ "a::b" = "a: :b" :=
  encodeIdentifier_eq_iff _ _ (by decide) (by decide)

end Prusti.Encoder

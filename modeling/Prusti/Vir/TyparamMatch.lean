/-
What matching a concrete name against a generic one finds, for names that are
joined from words and type parameters.
-/
import Prusti.Vir.Typaram
import Prusti.Lib.Joined
import Prusti.Lib.LazySplit

namespace Prusti.Vir.Typaram

open Prusti.Lib

/-! The lazy groups. -/

section Groups

variable {literal : List Char}
  {matchRest : List Char → Option (List (List Char))}

/-- The literal and the rest of the pattern match here. -/
def matchHere (literal : List Char)
    (matchRest : List Char → Option (List (List Char))) (text : List Char) :
    Option (List (List Char)) :=
  if literal.isPrefixOf text then matchRest (text.drop literal.length) else none

theorem matchHere_eq_some_iff {text : List Char} {captures : List (List Char)} :
    matchHere literal matchRest text = some captures ↔
      ∃ tail, text = literal ++ tail ∧ matchRest tail = some captures := by
  unfold matchHere
  constructor
  · intro h
    split at h
    · next hbegins =>
        obtain ⟨tail, rfl⟩ := List.isPrefixOf_iff_prefix.mp hbegins
        rw [List.drop_left] at h
        exact ⟨tail, rfl, h⟩
    · cases h
  · rintro ⟨tail, rfl, h⟩
    rw [if_pos (List.isPrefixOf_iff_prefix.mpr (List.prefix_append _ _)), List.drop_left]
    exact h

theorem matchHere_eq_none_iff {text : List Char} :
    matchHere literal matchRest text = none ↔
      ∀ tail, text = literal ++ tail → matchRest tail = none := by
  rw [Option.eq_none_iff_forall_ne_some]
  constructor
  · intro h tail htext
    rw [Option.eq_none_iff_forall_ne_some]
    intro captures hcaptures
    exact h captures (matchHere_eq_some_iff.mpr ⟨tail, htext, hcaptures⟩)
  · intro h captures hcaptures
    obtain ⟨tail, htext, hrest⟩ := matchHere_eq_some_iff.mp hcaptures
    rw [h tail htext] at hrest
    cases hrest

theorem captureLazy_cons (captured : List Char) {char : Char} {rest : List Char}
    (hline : char ≠ '\n') :
    captureLazy literal matchRest captured (char :: rest) =
      match matchHere literal matchRest (char :: rest) with
      | some captures => some (captured :: captures)
      | none => captureLazy literal matchRest (captured ++ [char]) rest := by
  rw [captureLazy, matchHere]
  cases hbegins : literal.isPrefixOf (char :: rest) with
  | false => simp [hline]
  | true =>
    cases hrest : matchRest ((char :: rest).drop literal.length) with
    | none => simp [hline]
    | some captures => simp

theorem captureLazy_nil (captured : List Char) :
    captureLazy literal matchRest captured [] =
      (matchHere literal matchRest []).map (captured :: ·) := by
  rw [captureLazy, matchHere]
  split
  · rw [List.drop_nil]
  · rfl

/-- A lazy group takes the shortest capture for which the rest matches. -/
theorem captureLazy_spec {captured text : List Char} (hline : '\n' ∉ text) :
    match captureLazy literal matchRest captured text with
    | none => ∀ capture tail, text = capture ++ (literal ++ tail) → matchRest tail = none
    | some found => ∃ capture tail captures,
        found = (captured ++ capture) :: captures ∧
        text = capture ++ (literal ++ tail) ∧ matchRest tail = some captures ∧
        ∀ capture' tail', text = capture' ++ (literal ++ tail') →
          capture'.length < capture.length → matchRest tail' = none := by
  induction text generalizing captured with
  | nil =>
    rw [captureLazy_nil]
    cases hhere : matchHere literal matchRest [] with
    | none =>
      intro capture tail htext
      obtain ⟨rfl, _⟩ := List.append_eq_nil_iff.mp htext.symm
      exact matchHere_eq_none_iff.mp hhere tail htext
    | some captures =>
      obtain ⟨tail, htext, hrest⟩ := matchHere_eq_some_iff.mp hhere
      refine ⟨[], tail, captures, by simp, htext, hrest, ?_⟩
      intro capture' tail' _ hlt
      exact absurd hlt (Nat.not_lt_zero _)
  | cons char text ih =>
    rw [List.mem_cons, not_or] at hline
    rw [captureLazy_cons captured (Ne.symm hline.1)]
    cases hhere : matchHere literal matchRest (char :: text) with
    | some captures =>
      obtain ⟨tail, htext, hrest⟩ := matchHere_eq_some_iff.mp hhere
      refine ⟨[], tail, captures, by simp, htext, hrest, ?_⟩
      intro capture' tail' _ hlt
      exact absurd hlt (Nat.not_lt_zero _)
    | none =>
      have hnone := matchHere_eq_none_iff.mp hhere
      have hrest := @ih (captured ++ [char]) hline.2
      cases hfound : captureLazy literal matchRest (captured ++ [char]) text with
      | none =>
        simp only [hfound] at hrest
        intro capture tail htext
        cases capture with
        | nil => exact hnone tail htext
        | cons first capture => exact hrest capture tail (List.cons.inj htext).2
      | some found =>
        simp only [hfound] at hrest
        obtain ⟨capture, tail, captures, rfl, htext, hmatch, hshort⟩ := hrest
        refine ⟨char :: capture, tail, captures, by simp, by rw [htext]; rfl, hmatch, ?_⟩
        intro capture' tail' htext' hlt
        cases capture' with
        | nil => exact hnone tail' htext'
        | cons first capture' =>
          exact hshort capture' tail' (List.cons.inj htext').2 (Nat.lt_of_succ_lt_succ hlt)

/-- The groups of a pattern are cut lazily, or the text has no cut at all. -/
theorem matchGroups_spec (literals : List (List Char)) {text : List Char} (hline : '\n' ∉ text) :
    match matchGroups literals text with
    | none => ∀ captures, ¬ IsSplit literals captures text
    | some captures => IsLazySplit literals captures text := by
  induction literals generalizing text with
  | nil =>
    cases text with
    | nil =>
      refine ⟨.nil, fun other hother => ?_⟩
      rw [(isSplit_nil_iff.mp hother).1]
      exact .nil
    | cons char text =>
      intro captures h
      cases (isSplit_nil_iff.mp h).2
  | cons literal literals ih =>
    have hspec := @captureLazy_spec literal (matchGroups literals) [] text hline
    have htail : ∀ {capture tail}, text = capture ++ (literal ++ tail) → '\n' ∉ tail := by
      intro capture tail htext hmem
      rw [htext] at hline
      exact hline (List.mem_append_right _ (List.mem_append_right _ hmem))
    have hnone : ∀ {capture tail}, text = capture ++ (literal ++ tail) →
        matchGroups literals tail = none → ∀ captures, ¬ IsSplit literals captures tail := by
      intro capture tail htext hmatch
      have hrest := ih (htail htext)
      rw [hmatch] at hrest
      exact hrest
    rw [matchGroups]
    cases hfound : captureLazy literal (matchGroups literals) [] text with
    | none =>
      simp only [hfound] at hspec
      intro captures hsplit
      obtain ⟨capture, rest, tail, rfl, htext, hrest⟩ := isSplit_cons_iff.mp hsplit
      exact hnone htext (hspec capture tail htext) rest hrest
    | some found =>
      simp only [hfound] at hspec
      obtain ⟨capture, tail, captures, rfl, htext, hmatch, hshort⟩ := hspec
      have hrest := ih (htail htext)
      rw [hmatch] at hrest
      rw [List.nil_append, htext]
      apply hrest.cons
      intro capture' tail' htext' hlt
      have htext' := htext.trans htext'
      exact hnone htext' (hshort capture' tail' htext' hlt)

end Groups

/-! Names joined from words and type parameters. -/

/-- A part of a name between two separators. -/
inductive Token where
  | word (text : List Char)
  | param (body : List Char)

def typaramMark : List Char := "__TYPARAM__".toList

namespace Token

def text : Token → List Char
  | word text => text
  | param body => typaramOpen ++ (body ++ typaramClose)

/-- The part with its parameter replaced. -/
def valued (value : List Char → List Char) : Token → List Char
  | word text => text
  | param body => value (typaramOpen ++ (body ++ typaramClose))

/-- Words do not look like the beginning of a type parameter. -/
inductive Plain : Token → Prop where
  | word {text : List Char} (hmark : ¬ typaramMark <:+: text)
      (hline : '\n' ∉ text) : Plain (.word text)
  | param {body : List Char} (hclose : '$' ∉ body) (hline : '\n' ∉ body) : Plain (.param body)

/-- The type parameters, as they are spelled in the name. -/
def params : List Token → List (List Char)
  | [] => []
  | word _ :: rest => params rest
  | param body :: rest => (param body).text :: params rest

/-- The texts around the type parameters. -/
def fixedTexts (pending : List Char) : List Token → List (List Char)
  | [] => [pending]
  | [word text] => [pending ++ text]
  | [param _] => [pending, []]
  | word text :: rest => fixedTexts (pending ++ text ++ ['$']) rest
  | param _ :: rest => pending :: fixedTexts ['$'] rest

/-- The segments into which a joined name is cut. -/
def cut (pending : List Char) : List Token → List Segment
  | [] => [.literal pending]
  | [word text] => [.literal (pending ++ text)]
  | [param body] => [.literal pending, .typaram (param body).text, .literal []]
  | word text :: rest => cut (pending ++ text ++ ['$']) rest
  | param body :: rest =>
    .literal pending :: .typaram (param body).text :: cut ['$'] rest

theorem literals_cut (pending : List Char) (tokens : List Token) :
    literals (cut pending tokens) = fixedTexts pending tokens := by
  induction tokens generalizing pending with
  | nil => rfl
  | cons token tokens ih =>
    cases tokens with
    | nil => cases token <;> rfl
    | cons next tokens =>
      cases token with
      | word text => exact ih _
      | param body => exact congrArg _ (ih _)

theorem typarams_cut (pending : List Char) (tokens : List Token) :
    typarams (cut pending tokens) = params tokens := by
  induction tokens generalizing pending with
  | nil => rfl
  | cons token tokens ih =>
    cases tokens with
    | nil => cases token <;> rfl
    | cons next tokens =>
      cases token with
      | word text => exact ih _
      | param body => exact congrArg _ (ih _)

/-- The name with its parameters replaced is cut at the replacements. -/
theorem exists_isSplit (value : List Char → List Char) (pending : List Char) (tokens : List Token) :
    ∃ first rest tail, fixedTexts pending tokens = first :: rest ∧
      pending ++ joined '$' (tokens.map (valued value)) = first ++ tail ∧
      IsSplit rest ((params tokens).map value) tail := by
  induction tokens generalizing pending with
  | nil => exact ⟨pending, [], [], rfl, rfl, .nil⟩
  | cons token tokens ih =>
    cases tokens with
    | nil =>
      cases token with
      | word text => exact ⟨_, [], [], rfl, by simp [joined, valued], .nil⟩
      | param body =>
        exact ⟨pending, [[]], _, rfl, rfl, isSplit_cons_iff.mpr ⟨_, [], [], rfl,
            by simp [joined, valued, text], .nil⟩⟩
    | cons next tokens =>
      cases token with
      | word text =>
        obtain ⟨first, rest, tail, hfixed, htext, hsplit⟩ := ih (pending ++ text ++ ['$'])
        refine ⟨first, rest, tail, hfixed, ?_, hsplit⟩
        rw [← htext]
        simp [joined, valued]
      | param body =>
        obtain ⟨first, rest, tail, hfixed, htext, hsplit⟩ := ih ['$']
        refine ⟨pending, first :: rest, _, congrArg _ hfixed, rfl,
          isSplit_cons_iff.mpr ⟨_, _, tail, rfl, ?_, hsplit⟩⟩
        rw [← htext]
        simp [joined, valued, text]

/-- What is put in the place of a type parameter. -/
def replacement (substs : Substs) (typaram : List Char) : List Char :=
  match substs.get? (String.ofList typaram) with
  | some text => text.toList
  | none => typaram

theorem applySegment_typaram (substs : Substs) (typaram : List Char) :
    applySegment substs (.typaram typaram) = replacement substs typaram := rfl

theorem flatMap_cut (substs : Substs) (pending : List Char) (tokens : List Token) :
    (cut pending tokens).flatMap (applySegment substs) =
      pending ++ joined '$' (tokens.map (valued (replacement substs))) := by
  induction tokens generalizing pending with
  | nil => simp [cut, applySegment, joined]
  | cons token tokens ih =>
    cases tokens with
    | nil =>
      cases token with
      | word text => simp [cut, applySegment, joined, valued]
      | param body =>
        simp only [cut, List.flatMap_cons, List.flatMap_nil, applySegment_typaram]
        simp [applySegment, joined, valued, text]
    | cons next tokens =>
      cases token with
      | word text =>
        have hrest := ih (pending ++ text ++ ['$'])
        simp only [cut]
        rw [hrest]
        simp [joined, valued]
      | param body =>
        have hrest := ih ['$']
        simp only [cut, List.flatMap_cons, applySegment_typaram]
        rw [hrest]
        simp [applySegment, joined, valued, text]

end Token

/-! The cutting of a name finds the parts. -/

theorem typaramOpen_eq : typaramOpen = typaramMark ++ ['$'] := rfl

theorem takeClose_body {body : List Char} (hclose : '$' ∉ body)
    (hline : '\n' ∉ body) (rest : List Char) :
    takeClose (body ++ (typaramClose ++ rest)) = some (body ++ typaramClose, rest) := by
  induction body with
  | nil =>
    change takeClose ('$' :: '_' :: '_' :: rest) = _
    simp [takeClose, typaramClose]
  | cons char body ih =>
    rw [List.mem_cons, not_or] at hclose hline
    have hbegins : typaramClose.isPrefixOf (char :: (body ++ (typaramClose ++ rest))) = false := by
      simp [typaramClose, List.isPrefixOf, hclose.1]
    rw [List.cons_append, takeClose, hbegins, ih hclose.2 hline.2]
    simp [Ne.symm hline.1]

theorem takeTyparam_param {body : List Char} (hclose : '$' ∉ body)
    (hline : '\n' ∉ body) (rest : List Char) :
    takeTyparam ((Token.param body).text ++ rest) = some ((Token.param body).text, rest) := by
  have htext : (Token.param body).text ++ rest =
      typaramOpen ++ (body ++ (typaramClose ++ rest)) := by
    simp [Token.text]
  rw [htext, takeTyparam, if_pos (List.isPrefixOf_iff_prefix.mpr (List.prefix_append _ _)),
    List.drop_left, takeClose_body hclose hline]
  rfl

/-- No type parameter begins inside of a plain word. -/
theorem typaramOpen_not_prefix {text rest : List Char} (hmark : ¬ typaramMark <:+: text)
    (hrest : ∀ char ∈ rest.head?, char = '$') : ¬ typaramOpen <+: text ++ rest := by
  rintro ⟨tail, htail⟩
  rw [typaramOpen_eq, List.append_assoc] at htail
  rcases List.append_eq_append_iff.mp htail with
    ⟨between, hbetween, _⟩ | ⟨between, hbetween, hafter⟩
  · exact hmark ⟨[], between, by simp [hbetween]⟩
  · cases between with
    | nil => exact hmark ⟨[], [], by simp [hbetween]⟩
    | cons char between =>
      have hchar := hrest char (by rw [hafter]; rfl)
      have hmem : '$' ∈ typaramMark := by
        rw [hbetween, hchar]
        simp
      exact absurd hmem (by decide)

theorem takeTyparam_word {text rest : List Char} (hmark : ¬ typaramMark <:+: text)
    (hrest : ∀ char ∈ rest.head?, char = '$') :
    takeTyparam (text ++ rest) = none := by
  unfold takeTyparam
  rw [if_neg]
  exact fun hopen =>
    typaramOpen_not_prefix hmark hrest (List.isPrefixOf_iff_prefix.mp hopen)

theorem segmentsAux_of_none {fuel : Nat} {pending rest : List Char} {char : Char}
    (h : takeTyparam (char :: rest) = none) :
    segmentsAux (fuel + 1) pending (char :: rest) = segmentsAux fuel (pending ++ [char]) rest := by
  conv => lhs; unfold segmentsAux
  rw [h]

theorem segmentsAux_of_some {fuel : Nat} {pending rest text left : List Char}
    (h : takeTyparam rest = some (text, left)) :
    segmentsAux (fuel + 1) pending rest =
      .literal pending :: .typaram text :: segmentsAux fuel [] left := by
  conv => lhs; unfold segmentsAux
  rw [h]

theorem segmentsAux_word {fuel : Nat} {pending text rest : List Char}
    (hmark : ¬ typaramMark <:+: text) (hrest : ∀ char ∈ rest.head?, char = '$')
    (hfuel : text.length ≤ fuel) :
    segmentsAux fuel pending (text ++ rest) =
      segmentsAux (fuel - text.length) (pending ++ text) rest := by
  induction text generalizing fuel pending with
  | nil => simp
  | cons char text ih =>
    obtain ⟨fuel, rfl⟩ : ∃ fuel', fuel = fuel' + 1 :=
      ⟨fuel - 1, by rw [List.length_cons] at hfuel; omega⟩
    have hnone : takeTyparam (char :: (text ++ rest)) = none := takeTyparam_word hmark hrest
    rw [List.length_cons] at hfuel
    have htail : ¬ typaramMark <:+: text :=
      fun h => hmark (h.trans (List.suffix_cons char text).isInfix)
    rw [List.cons_append, segmentsAux_of_none hnone, ih htail (by omega), List.length_cons]
    simp

theorem takeTyparam_of_head {text : List Char}
    (h : ∀ char ∈ text.head?, char ≠ '_') : takeTyparam text = none := by
  have hopen : typaramOpen = '_' :: "_TYPARAM__$".toList := by decide
  unfold takeTyparam
  rw [if_neg]
  rw [hopen]
  intro hbegins
  obtain ⟨tail, rfl⟩ := List.isPrefixOf_iff_prefix.mp hbegins
  exact h '_' rfl rfl

theorem segmentsAux_separator (fuel : Nat) (pending rest : List Char) :
    segmentsAux (fuel + 1) pending ('$' :: rest) = segmentsAux fuel (pending ++ ['$']) rest := by
  apply segmentsAux_of_none
  apply takeTyparam_of_head
  intro char hchar
  cases hchar
  decide

theorem segmentsAux_nil (fuel : Nat) (pending : List Char) :
    segmentsAux fuel pending [] = [.literal pending] := by
  cases fuel with
  | zero =>
    unfold segmentsAux
    rw [List.append_nil]
  | succ fuel =>
    unfold segmentsAux
    rw [takeTyparam_of_head (by simp)]

theorem segmentsAux_param {fuel : Nat} {pending body rest : List Char}
    (hclose : '$' ∉ body) (hline : '\n' ∉ body) :
    segmentsAux (fuel + 1) pending ((Token.param body).text ++ rest) =
      .literal pending :: .typaram (Token.param body).text :: segmentsAux fuel [] rest :=
  segmentsAux_of_some (takeTyparam_param hclose hline rest)

theorem length_text_pos (body : List Char) : 0 < (Token.param body).text.length := by
  have hopen : typaramOpen.length = 12 := by decide
  rw [Token.text, List.length_append, hopen]
  omega

/-- A joined name is cut at its type parameters. -/
theorem segmentsAux_joined {tokens : List Token}
    (hplain : ∀ token ∈ tokens, token.Plain) {fuel : Nat} (pending : List Char)
    (hfuel : (joined '$' (tokens.map Token.text)).length ≤ fuel) :
    segmentsAux fuel pending (joined '$' (tokens.map Token.text)) = Token.cut pending tokens := by
  induction tokens generalizing fuel pending with
  | nil => exact segmentsAux_nil fuel pending
  | cons token tokens ih =>
    have htoken := hplain token List.mem_cons_self
    have htokens := fun other hother =>
      hplain other (List.mem_cons_of_mem token hother)
    cases tokens with
    | nil =>
      cases htoken with
      | @word text hmark hline =>
        have hword := @segmentsAux_word fuel pending text [] hmark (by simp) hfuel
        rw [List.append_nil, segmentsAux_nil] at hword
        exact hword
      | @param body hclose hline =>
        have hpos : (Token.param body).text.length ≤ fuel := hfuel
        obtain ⟨fuel, rfl⟩ : ∃ fuel', fuel = fuel' + 1 :=
          ⟨fuel - 1, by have := length_text_pos body; omega⟩
        have hparam := @segmentsAux_param fuel pending body [] hclose hline
        rw [List.append_nil, segmentsAux_nil] at hparam
        exact hparam
    | cons next tokens =>
      have htext : joined '$' ((token :: next :: tokens).map Token.text) =
          token.text ++ '$' :: joined '$' ((next :: tokens).map Token.text) := rfl
      rw [htext] at hfuel ⊢
      rw [List.length_append, List.length_cons] at hfuel
      cases htoken with
      | @word text hmark hline =>
        have hfuel : text.length +
            ((joined '$' ((next :: tokens).map Token.text)).length + 1) ≤ fuel :=
          hfuel
        have hword := @segmentsAux_word fuel pending text
          ('$' :: joined '$' ((next :: tokens).map Token.text)) hmark
          (by simp) (by omega)
        obtain ⟨left, hleft⟩ : ∃ left, fuel - text.length = left + 1 :=
          ⟨fuel - text.length - 1, by omega⟩
        rw [hleft, segmentsAux_separator, ih htokens _ (by omega)] at hword
        exact hword
      | @param body hclose hline =>
        have hpos := length_text_pos body
        obtain ⟨left, rfl⟩ : ∃ left, fuel = left + 2 := ⟨fuel - 2, by omega⟩
        have hparam := @segmentsAux_param (left + 1) pending body
          ('$' :: joined '$' ((next :: tokens).map Token.text)) hclose hline
        rw [segmentsAux_separator, ih htokens _ (by omega)] at hparam
        exact hparam

/-- A name that is joined from words and type parameters. -/
def nameOf (tokens : List Token) : String := String.ofList (joined '$' (tokens.map Token.text))

theorem segments_nameOf {tokens : List Token} (hplain : ∀ token ∈ tokens, token.Plain) :
    segments (nameOf tokens) = Token.cut [] tokens := by
  unfold segments nameOf
  rw [String.toList_ofList]
  exact segmentsAux_joined hplain [] (Nat.le_refl _)

/-- A substitution replaces the type parameters. -/
theorem apply_nameOf {tokens : List Token}
    (hplain : ∀ token ∈ tokens, token.Plain) (substs : Substs) :
    apply substs (nameOf tokens) = String.ofList
      (joined '$' (tokens.map (Token.valued (Token.replacement substs)))) := by
  rw [apply, segments_nameOf hplain, Token.flatMap_cut, List.nil_append]

/-! The learned substitution. -/

section Learn

variable {concrete : String} {pairs : List (List Char × List Char)}

/-- Parameters that occur once are recorded with their captures. -/
theorem learnCaptures_of_nodup (hnodup : (pairs.map Prod.fst).Nodup) (repls : Substs)
    (hnew : ∀ pair ∈ pairs, repls.get? (String.ofList pair.1) = none) :
    ∃ substs, learnCaptures concrete pairs repls = some substs ∧
      (∀ pair ∈ pairs, substs.get? (String.ofList pair.1) = some (String.ofList pair.2)) ∧
      ∀ key, (∀ pair ∈ pairs, String.ofList pair.1 ≠ key) → substs.get? key = repls.get? key := by
  induction pairs generalizing repls with
  | nil => exact ⟨repls, rfl, nofun, fun _ _ => rfl⟩
  | cons pair pairs ih =>
    obtain ⟨typaram, capture⟩ := pair
    rw [List.map_cons, List.nodup_cons] at hnodup
    have hfresh : ∀ other ∈ pairs, String.ofList other.1 ≠ String.ofList typaram := by
      intro other hother heq
      have hmem : other.1 ∈ pairs.map Prod.fst := List.mem_map_of_mem hother
      rw [String.ofList_injective heq] at hmem
      exact hnodup.1 hmem
    obtain ⟨substs, hsubsts, hfound, hother⟩ := ih hnodup.2
      (repls.insert (String.ofList typaram) (String.ofList capture)) (by
        intro other hother
        rw [HashMap.get?_insert, if_neg (by simpa using (hfresh other hother).symm)]
        exact hnew other (List.mem_cons_of_mem _ hother))
    refine ⟨substs, ?_, ?_, ?_⟩
    · rw [learnCaptures, hnew _ List.mem_cons_self]
      exact hsubsts
    · intro other hmem
      rcases List.mem_cons.mp hmem with rfl | hmem
      · rw [hother _ hfresh, HashMap.get?_insert, if_pos BEq.rfl]
      · exact hfound other hmem
    · intro key hkey
      rw [hother key fun other hmem => hkey other (List.mem_cons_of_mem _ hmem),
        HashMap.get?_insert, if_neg (by simpa using hkey (typaram, capture) List.mem_cons_self)]

/-- A parameter that is met again panics: its first capture is not the whole
concrete name. -/
theorem learnCaptures_eq_none {repls : Substs} (hagain : ¬ (pairs.map Prod.fst).Nodup ∨
      ∃ pair ∈ pairs, (repls.get? (String.ofList pair.1)).isSome = true)
    (hpairs : ∀ pair ∈ pairs, String.ofList pair.2 ≠ concrete)
    (hrepls : ∀ key old, repls.get? key = some old → old ≠ concrete) :
    learnCaptures concrete pairs repls = none := by
  induction pairs generalizing repls with
  | nil =>
    rcases hagain with hagain | ⟨pair, hpair, _⟩
    · exact absurd List.nodup_nil hagain
    · cases hpair
  | cons pair pairs ih =>
    obtain ⟨typaram, capture⟩ := pair
    rw [learnCaptures]
    cases hold : repls.get? (String.ofList typaram) with
    | some old =>
      have hne := (hrepls _ old hold).symm
      simp [hne]
    | none =>
      apply ih
      · rcases hagain with hagain | ⟨other, hother, hsome⟩
        · by_cases hmem : typaram ∈ pairs.map Prod.fst
          · obtain ⟨other, hother, rfl⟩ := List.mem_map.mp hmem
            right
            refine ⟨other, hother, ?_⟩
            rw [HashMap.get?_insert, if_pos BEq.rfl]
            rfl
          · left
            intro hnodup
            exact hagain (List.nodup_cons.mpr ⟨hmem, hnodup⟩)
        · rcases List.mem_cons.mp hother with rfl | hother
          · rw [hold] at hsome
            cases hsome
          · right
            refine ⟨other, hother, ?_⟩
            rw [HashMap.get?_insert]
            split
            · rfl
            · exact hsome
      · exact fun other hother => hpairs other (List.mem_cons_of_mem _ hother)
      · intro key old hkey
        rw [HashMap.get?_insert] at hkey
        split at hkey
        · cases hkey
          exact hpairs (typaram, capture) List.mem_cons_self
        · exact hrepls key old hkey

end Learn

/-- In every other way to find the fixed texts of the generic name, the first
replacement of another length is longer than the right one. -/
def ShortestCut (tokens : List Token) (value : List Char → List Char) : Prop :=
  ∀ first rest tail other, Token.fixedTexts [] tokens = first :: rest →
    joined '$' (tokens.map (Token.valued value)) = first ++ tail →
      IsSplit rest other tail → LazyLe ((Token.params tokens).map value) other

section Exact

variable {tokens : List Token} {value : List Char → List Char}

/-- The name with its parameters replaced. -/
def concreteName (tokens : List Token) (value : List Char → List Char) : String :=
  String.ofList (joined '$' (tokens.map (Token.valued value)))

/-- Learning from a concrete name that differs records the lazy cut. -/
theorem learn_concreteName (hplain : ∀ token ∈ tokens, token.Plain)
    (hline : '\n' ∉ joined '$' (tokens.map (Token.valued value)))
    (hne : nameOf tokens ≠ concreteName tokens value) :
    ∃ first rest tail found, Token.fixedTexts [] tokens = first :: rest ∧
      joined '$' (tokens.map (Token.valued value)) = first ++ tail ∧
      IsSplit rest ((Token.params tokens).map value) tail ∧
      IsLazySplit rest found tail ∧
      learn (nameOf tokens) (concreteName tokens value) = learnCaptures (concreteName tokens value)
          ((Token.params tokens).zip found) HashMap.empty := by
  obtain ⟨first, rest, tail, hfixed, htext, hsplit⟩ := Token.exists_isSplit value [] tokens
  rw [List.nil_append] at htext
  have hmatch := @matchGroups_spec rest tail (by
    rw [htext] at hline
    exact fun hmem => hline (List.mem_append_right _ hmem))
  have hcaptures : captures (Token.cut [] tokens) (concreteName tokens value) =
      matchGroups rest tail := by
    rw [captures, Token.literals_cut, hfixed, concreteName, String.toList_ofList, htext]
    change (if first.isPrefixOf (first ++ tail) then _ else none) = _
    rw [if_pos (List.isPrefixOf_iff_prefix.mpr (List.prefix_append _ _)), List.drop_left]
  cases hfound : matchGroups rest tail with
  | none =>
    rw [hfound] at hmatch
    exact absurd hsplit (hmatch _)
  | some found =>
    rw [hfound] at hmatch hcaptures
    refine ⟨first, rest, tail, found, hfixed, htext, hsplit, hmatch, ?_⟩
    rw [learn]
    simp only [segments_nameOf hplain]
    rw [if_neg (by simpa using hne), hcaptures, Token.typarams_cut]

/-- Learning from the generic name itself replaces nothing. -/
theorem learn_self (name : String) :
    ∃ substs, learn name name = some substs ∧
      ∀ typaram, Token.replacement substs typaram = typaram := by
  refine ⟨_, by rw [learn, if_pos BEq.rfl], fun typaram => ?_⟩
  rw [Token.replacement, HashMap.ofList, HashMap.get?_foldl_insert,
    HashMap.get?_empty, Option.or_none]
  cases hlookup : lookup _ (String.ofList typaram) with
  | none => rfl
  | some text =>
    obtain ⟨entry, hentry, hkey, rfl⟩ := exists_mem_of_lookup_eq_some hlookup
    obtain ⟨other, _, rfl⟩ := List.mem_map.mp (List.mem_reverse.mp hentry)
    have hsame : String.ofList other = String.ofList typaram := eq_of_beq hkey
    change (String.ofList other).toList = typaram
    rw [hsame]
    exact String.toList_ofList

theorem Token.valued_eq_text (hvalue : ∀ typaram ∈ Token.params tokens, value typaram = typaram)
    {token : Token} (htoken : token ∈ tokens) :
    token.valued value = token.text := by
  induction tokens with
  | nil => cases htoken
  | cons head tail ih =>
    cases head with
    | word text =>
      rcases List.mem_cons.mp htoken with rfl | htoken
      · rfl
      · exact ih hvalue htoken
    | param body =>
      rcases List.mem_cons.mp htoken with rfl | htoken
      · exact hvalue _ List.mem_cons_self
      · exact ih (fun typaram hmem =>
          hvalue typaram (List.mem_cons_of_mem _ hmem)) htoken

theorem eq_map_of_zip {α β : Type} {keys : List α} {values : List β} {f : α → β}
    (hlength : keys.length = values.length)
    (h : ∀ pair ∈ keys.zip values, f pair.1 = pair.2) : values = keys.map f := by
  induction keys generalizing values with
  | nil => exact List.eq_nil_of_length_eq_zero hlength.symm
  | cons key keys ih =>
    cases values with
    | nil => cases hlength
    | cons value values =>
      rw [List.map_cons, ← ih (Nat.succ.inj hlength) fun pair hpair =>
        h pair (List.mem_cons_of_mem _ hpair)]
      rw [h (key, value) List.mem_cons_self]

/-- What is learned are the right replacements exactly if nothing is replaced,
or every parameter occurs once and the shortest cut is the right one. -/
theorem learn_iff (hplain : ∀ token ∈ tokens, token.Plain)
    (hline : '\n' ∉ joined '$' (tokens.map (Token.valued value)))
    (hsame : nameOf tokens = concreteName tokens value →
      ∀ typaram ∈ Token.params tokens, value typaram = typaram)
    (hfirst : ¬ (Token.params tokens).Nodup → ∀ rest, Token.fixedTexts [] tokens ≠ [] :: rest) :
    (∃ substs, learn (nameOf tokens) (concreteName tokens value) = some substs ∧
      ∀ typaram ∈ Token.params tokens, Token.replacement substs typaram = value typaram) ↔
      (∀ typaram ∈ Token.params tokens, value typaram = typaram) ∨
        (Token.params tokens).Nodup ∧ ShortestCut tokens value := by
  by_cases heq : nameOf tokens = concreteName tokens value
  · have hvalue := hsame heq
    constructor
    · exact fun _ => .inl hvalue
    · intro _
      obtain ⟨substs, hlearn, hreplacement⟩ := learn_self (nameOf tokens)
      rw [← heq]
      exact ⟨substs, hlearn, fun typaram hmem =>
        (hreplacement typaram).trans (hvalue typaram hmem).symm⟩
  · have hleft : ¬ ∀ typaram ∈ Token.params tokens, value typaram = typaram := by
      intro hvalue
      exact heq (congrArg String.ofList (congrArg (joined '$')
        (List.map_congr_left fun token htoken =>
          (Token.valued_eq_text hvalue htoken).symm)))
    rw [or_iff_right hleft]
    obtain ⟨first, rest, tail, found, hfixed, htext, hsplit, hlazy, hlearn⟩ :=
      learn_concreteName hplain hline heq
    have hlength : (Token.params tokens).length = found.length := by
      rw [hlazy.split.length_eq, ← hsplit.length_eq, List.length_map]
    have hkeys : ((Token.params tokens).zip found).map Prod.fst = Token.params tokens :=
      List.map_fst_zip (Nat.le_of_eq hlength)
    by_cases hnodup : (Token.params tokens).Nodup
    · obtain ⟨substs, hsubsts, hpairs, _⟩ :=
        @learnCaptures_of_nodup (concreteName tokens value)
          ((Token.params tokens).zip found) (by rw [hkeys]; exact hnodup)
          HashMap.empty (fun _ _ => rfl)
      have hfound : found = (Token.params tokens).map (Token.replacement substs) := by
        apply eq_map_of_zip hlength
        intro pair hpair
        rw [Token.replacement, hpairs pair hpair]
        exact String.toList_ofList
      rw [hlearn, hsubsts]
      constructor
      · rintro ⟨_, hsome, hvalue⟩
        cases hsome
        have hright : found = (Token.params tokens).map value :=
          hfound.trans (List.map_congr_left hvalue)
        refine ⟨hnodup, ?_⟩
        intro first' rest' tail' other hfixed' htext' hother
        rw [hfixed] at hfixed'
        cases hfixed'
        cases List.append_cancel_left (htext.symm.trans htext')
        rw [← hright]
        exact hlazy.least other hother
      · rintro ⟨_, hshortest⟩
        have hright : found = (Token.params tokens).map value :=
          hlazy.unique ⟨hsplit, fun other hother =>
            hshortest first rest tail other hfixed htext hother⟩
        refine ⟨substs, rfl, ?_⟩
        exact List.map_inj_left.mp (hfound.symm.trans hright)
    · have hnone : learnCaptures (concreteName tokens value)
          ((Token.params tokens).zip found) HashMap.empty = none := by
        apply learnCaptures_eq_none
        · left
          rw [hkeys]
          exact hnodup
        · intro pair hpair hwhole
          -- The fixed text in front makes the whole name longer.
          have hle := hlazy.split.length_capture_le pair.2 (List.of_mem_zip hpair).2
          have hchars := congrArg String.length hwhole
          rw [concreteName, htext] at hchars
          simp only [String.length_ofList, List.length_append] at hchars
          have hnil : first = [] := List.eq_nil_of_length_eq_zero (by omega)
          rw [hnil] at hfixed
          exact hfirst hnodup rest hfixed
        · intro key old hget
          cases hget
      rw [hlearn, hnone]
      constructor
      · rintro ⟨_, hsome, _⟩
        cases hsome
      · rintro ⟨h, _⟩
        exact absurd h hnodup

end Exact

end Prusti.Vir.Typaram

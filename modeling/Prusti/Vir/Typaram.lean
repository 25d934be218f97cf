/-
Substitutions of type parameters, learned from the names of two encoded types.
The regular expressions of the source are spelled out: a type parameter is
`__TYPARAM__$..$__` with the shortest possible middle part, and the concrete
name is matched against the generic one with lazy groups in place of its
parameters.  Names contain no regular-expression operator except `$`, which the
source escapes.
-/
import Prusti.Vir.Common

namespace Prusti.Vir.Typaram

/-- A piece of an encoded name. -/
inductive Segment where
  | literal (text : List Char)
  | typaram (text : List Char)
deriving Repr, DecidableEq

def typaramOpen : List Char := "__TYPARAM__$".toList

def typaramClose : List Char := "$__".toList

/-- The shortest text up to and including the closing mark. -/
def takeClose : List Char → Option (List Char × List Char)
  | [] => none
  | char :: rest =>
    if typaramClose.isPrefixOf (char :: rest) then
      some (typaramClose, (char :: rest).drop typaramClose.length)
    else if char == '\n' then none
    else (takeClose rest).map fun (text, left) => (char :: text, left)

/-- Try to read a type parameter at the start of the text. -/
def takeTyparam (text : List Char) : Option (List Char × List Char) :=
  if typaramOpen.isPrefixOf text then
    (takeClose (text.drop typaramOpen.length)).map fun (body, left) =>
      (typaramOpen ++ body, left)
  else none

/-- Cut a name at the leftmost non-overlapping type parameters.  The first
argument bounds the number of steps by the length of the name. -/
def segmentsAux : Nat → List Char → List Char → List Segment
  | 0, pending, rest => [.literal (pending ++ rest)]
  | fuel + 1, pending, rest =>
    match takeTyparam rest with
    | some (text, left) =>
      .literal pending :: .typaram text :: segmentsAux fuel [] left
    | none =>
      match rest with
      | [] => [.literal pending]
      | char :: left => segmentsAux fuel (pending ++ [char]) left

def segments (name : String) : List Segment := segmentsAux name.toList.length [] name.toList

def literals : List Segment → List (List Char)
  | [] => []
  | .literal text :: rest => text :: literals rest
  | .typaram _ :: rest => literals rest

def typarams : List Segment → List (List Char)
  | [] => []
  | .literal _ :: rest => typarams rest
  | .typaram text :: rest => text :: typarams rest

/-- A lazy group followed by a literal: the shortest capture for which the
rest of the pattern matches. -/
def captureLazy (literal : List Char) (matchRest : List Char → Option (List (List Char))) :
    List Char → List Char → Option (List (List Char))
  | captured, [] =>
    if literal.isPrefixOf [] then (matchRest []).map fun captures => captured :: captures
    else none
  | captured, char :: rest =>
    let here :=
      if literal.isPrefixOf (char :: rest) then
        (matchRest ((char :: rest).drop literal.length)).map fun captures =>
          captured :: captures
      else none
    match here with
    | some captures => some captures
    | none =>
      if char == '\n' then none
      else captureLazy literal matchRest (captured ++ [char]) rest

/-- Match the literals that follow the groups, up to the end of the text. -/
def matchGroups : List (List Char) → List Char → Option (List (List Char))
  | [] => fun text => if text.isEmpty then some [] else none
  | literal :: rest => captureLazy literal (matchGroups rest) []

/-- The captures of the generic name's parameters in the concrete name. -/
def captures (segs : List Segment) (concrete : String) : Option (List (List Char)) :=
  match literals segs with
  | [] => none
  | first :: rest =>
    if first.isPrefixOf concrete.toList then
      matchGroups rest (concrete.toList.drop first.length)
    else none

/-- The learned replacements, by parameter. -/
abbrev Substs := Lib.HashMap String String

/-- Record the captures.  A parameter met again panics unless the whole
concrete name is its first replacement. -/
def learnCaptures (concrete : String) : List (List Char × List Char) → Substs → Option Substs
  | [], repls => some repls
  | (typaram, capture) :: rest, repls =>
    let key := String.ofList typaram
    match repls.get? key with
    | some old =>
      if concrete == old then
        learnCaptures concrete rest (repls.insert key (String.ofList capture))
      else none
    | none =>
      learnCaptures concrete rest (repls.insert key (String.ofList capture))

/-- The substitution that leads from the generic name to the concrete one;
`none` stands for a panic. -/
def learn (generic concrete : String) : Option Substs :=
  let segs := segments generic
  if generic == concrete then
    some (Lib.HashMap.ofList ((typarams segs).map fun text =>
      (String.ofList text, String.ofList text)))
  else
    match captures segs concrete with
    | none => none
    | some found => learnCaptures concrete ((typarams segs).zip found) Lib.HashMap.empty

def applySegment (substs : Substs) : Segment → List Char
  | .literal text => text
  | .typaram text =>
    match substs.get? (String.ofList text) with
    | some replacement => replacement.toList
    | none => text

def apply (substs : Substs) (inner : String) : String :=
  String.ofList ((segments inner).flatMap (applySegment substs))

end Prusti.Vir.Typaram

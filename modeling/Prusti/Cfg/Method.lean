/-
Control-flow graphs of methods: blocks of statements with their successors,
the operations that build them and the topological sort of their blocks.  The
operations check the labels; `none` stands for a failed assertion or an index
out of bounds.
-/
import Prusti.Vir.Stmt
import Prusti.Lib.Names
import Mathlib.Data.List.Nodup
import Mathlib.Data.List.Perm.Subperm

namespace Prusti.Cfg

open Prusti.Vir Prusti.Lib

variable {index : CfgBlockIndex} {successor : Successor} {fuel : Nat} {name : String}

/-- The index of a block, tagged with the method it belongs to. -/
structure CfgBlockIndex where
  methodUuid : Nat
  blockIndex : Nat
deriving Repr, DecidableEq

def CfgBlockIndex.setUuid (index : CfgBlockIndex) (methodUuid : Nat) : CfgBlockIndex :=
  { index with methodUuid := methodUuid }

inductive Successor where
  | undefined
  | ret
  | goto (target : CfgBlockIndex)
  | gotoSwitch (guardedTargets : List (Expr × CfgBlockIndex)) (defaultTarget : CfgBlockIndex)
deriving Repr

namespace Successor

def isReturn : Successor → Bool
  | ret => true
  | _ => false

def getFollowing : Successor → List CfgBlockIndex
  | undefined | ret => []
  | goto target => [target]
  | gotoSwitch guardedTargets defaultTarget =>
    guardedTargets.map (·.2) ++ [defaultTarget]

/-- Change the targets. -/
def mapTargets (f : CfgBlockIndex → CfgBlockIndex) : Successor → Successor
  | goto target => goto (f target)
  | gotoSwitch guardedTargets defaultTarget =>
    gotoSwitch (guardedTargets.map fun guarded => (guarded.1, f guarded.2)) (f defaultTarget)
  | other => other

/-- Both indices have to belong to the same method. -/
def replaceTarget (successor : Successor) (src dst : CfgBlockIndex) : Option Successor :=
  if src.methodUuid = dst.methodUuid then
    some (successor.mapTargets fun target => if target = src then dst else target)
  else none

def replaceUuid (successor : Successor) (newUuid : Nat) : Successor :=
  successor.mapTargets fun target => target.setUuid newUuid

/-- The positions of the targets. -/
def targets (successor : Successor) : List Nat := successor.getFollowing.map (·.blockIndex)

theorem getFollowing_mapTargets (f : CfgBlockIndex → CfgBlockIndex) (successor : Successor) :
    (successor.mapTargets f).getFollowing = successor.getFollowing.map f := by
  cases successor <;> simp [mapTargets, getFollowing, Function.comp_def]

@[simp] theorem targets_replaceUuid (successor : Successor) (newUuid : Nat) :
    (successor.replaceUuid newUuid).targets = successor.targets := by
  simp [targets, replaceUuid, getFollowing_mapTargets, CfgBlockIndex.setUuid, Function.comp_def]

end Successor

structure CfgBlock where
  stmts : List Stmt
  successor : Successor
deriving Repr

/-- The name of the implicit final label. -/
def returnLabel : String := "end_of_method"

/-- The classes of characters that occur in the checks of labels. -/
structure CharClass where
  isAlphabetic : Char → Bool
  isAlphanumeric : Char → Bool
  alphabetic_l : isAlphabetic 'l' = true
  alphanumeric_digit : ∀ c, c.isDigit = true → isAlphanumeric c = true

theorem isAlpha_l : Char.isAlpha 'l' = true := by decide

theorem isAlphanum_of_isDigit (c : Char) (hc : c.isDigit = true) : c.isAlphanum = true := by
  simp [Char.isAlphanum, hc]

/-- A method.  Of the sets of labels only the membership is ever looked at. -/
structure CfgMethod where
  uuid : Nat
  methodName : String
  formalArgCount : Nat
  formalReturns : List LocalVar
  localVars : List LocalVar
  labels : List String
  reservedLabels : List String
  basicBlocks : List CfgBlock
  basicBlocksLabels : List String
  freshLabelIndex : Nat
deriving Repr

mutual

/-- The labels that a statement declares, also in its nested statements. -/
def gatherLabels : Stmt → List String
  | .label label => [label]
  | .packageMagicWand _ stmts _ _ _ => gatherAllLabels stmts
  | .ite _ thenStmts elseStmts =>
    gatherAllLabels thenStmts ++ gatherAllLabels elseStmts
  | _ => []

def gatherAllLabels : List Stmt → List String
  | [] => []
  | stmt :: stmts => gatherLabels stmt ++ gatherAllLabels stmts

end

namespace CfgMethod

def new (uuid : Nat) (methodName : String) (formalArgCount : Nat)
    (formalReturns localVars : List LocalVar) (reservedLabels : List String) :
    CfgMethod :=
  { uuid := uuid, methodName := methodName, formalArgCount := formalArgCount,
    formalReturns := formalReturns, localVars := localVars, labels := [],
    reservedLabels := reservedLabels, basicBlocks := [],
    basicBlocksLabels := [], freshLabelIndex := 0 }

/-- The index of the block at a position. -/
def blockIndex (method : CfgMethod) (index : Nat) : CfgBlockIndex := ⟨method.uuid, index⟩

def isFreshLocalName (method : CfgMethod) (name : String) : Bool :=
  method.formalReturns.all (fun x => x.name != name) &&
    method.localVars.all (fun x => x.name != name) &&
    !method.labels.contains name &&
    method.basicBlocksLabels.all (fun x => x != name)

/-- The loop that looks for the first fresh name from an index on.  The result
is the name and the next index. -/
def findFreshLabel (method : CfgMethod) : Nat → Nat → Option (String × Nat)
  | 0, _ => none
  | fuel + 1, index =>
    let candidateName := "l" ++ toString index
    if !method.isFreshLocalName candidateName || method.reservedLabels.contains candidateName then
      method.findFreshLabel fuel (index + 1)
    else some (candidateName, index + 1)

/-- The same loop for the names that begin with a stem. -/
def findFreshName (stem : String) (method : CfgMethod) : Nat → Nat → Option (String × Nat)
  | 0, _ => none
  | fuel + 1, index =>
    let candidateName := stem ++ toString index
    if !method.isFreshLocalName candidateName || method.reservedLabels.contains candidateName then
      findFreshName stem method fuel (index + 1)
    else some (candidateName, index + 1)

/-- The names that a fresh one has to differ from. -/
def usedNames (method : CfgMethod) : List String :=
  method.formalReturns.map (·.name) ++ method.localVars.map (·.name) ++
    method.labels ++ method.basicBlocksLabels ++ method.reservedLabels

/-- Among one more candidates than there are names, one is fresh. -/
def getFreshLabelName (method : CfgMethod) : Option (String × CfgMethod) :=
  (method.findFreshLabel (method.usedNames.length + 1)
    method.freshLabelIndex).map fun found =>
      (found.1, { method with freshLabelIndex := found.2 })

def getAllLabels (method : CfgMethod) : List String := method.labels ++ method.basicBlocksLabels

def addLabel (method : CfgMethod) (label : String) : Option CfgMethod :=
  if method.isFreshLocalName label then
    some { method with labels := method.labels ++ [label] }
  else none

def addStmt (method : CfgMethod) (index : CfgBlockIndex) (stmt : Stmt) : Option CfgMethod := do
  let method ← (gatherLabels stmt).foldlM addLabel method
  let block ← method.basicBlocks[index.blockIndex]?
  some { method with
    basicBlocks := method.basicBlocks.set index.blockIndex
      { block with stmts := block.stmts ++ [stmt] } }

def addStmts (method : CfgMethod) (index : CfgBlockIndex) (stmts : List Stmt) : Option CfgMethod :=
  stmts.foldlM (fun method stmt => method.addStmt index stmt) method

/-- The form of a label. -/
def isValidLabel (chars : CharClass) (label : String) : Bool :=
  (label.toList.take 1).all (fun c => chars.isAlphabetic c || c == '_') &&
    (label.toList.drop 1).all (fun c => chars.isAlphanumeric c || c == '_') &&
    label != returnLabel

def addBlock (chars : CharClass) (method : CfgMethod) (label : String)
    (stmts : List Stmt) : Option (CfgBlockIndex × CfgMethod) :=
  if isValidLabel chars label && method.basicBlocksLabels.all (fun l => l != label) then
    some (method.blockIndex method.basicBlocks.length,
      { method with
        basicBlocksLabels := method.basicBlocksLabels ++ [label],
        basicBlocks := method.basicBlocks ++ [⟨stmts, .undefined⟩] })
  else none

def setSuccessor (method : CfgMethod) (index : CfgBlockIndex)
    (successor : Successor) : Option CfgMethod :=
  if method.uuid = index.methodUuid then
    method.basicBlocks[index.blockIndex]?.map fun block =>
      { method with
        basicBlocks := method.basicBlocks.set index.blockIndex
          { block with successor := successor } }
  else none

def getPreceding (method : CfgMethod) (targetIndex : CfgBlockIndex) : Option (List CfgBlockIndex) :=
  if method.uuid = targetIndex.methodUuid then
    some (((List.range method.basicBlocks.length).filter fun index =>
      match method.basicBlocks[index]? with
      | some block => block.successor.getFollowing.contains targetIndex
      | none => false).map method.blockIndex)
  else none

/-- Enter a block unless it is marked. -/
def visitUnlessMarked
    (visit : List Bool → List CfgBlockIndex → Nat → Option (List Bool × List CfgBlockIndex))
    (state : List Bool × List CfgBlockIndex) (index : Nat) :
    Option (List Bool × List CfgBlockIndex) := do
  let marked ← state.1[index]?
  if marked then some state else visit state.1 state.2 index

/-- The fuel bounds the depth of the recursion. -/
def topologicalSortImpl (method : CfgMethod) :
    Nat → List Bool → List CfgBlockIndex → Nat → Option (List Bool × List CfgBlockIndex)
  | 0, _, _, _ => none
  | fuel + 1, visited, topoSorted, currIndex => do
    let marked ← visited[currIndex]?
    if marked then none
    else do
      let currBlock ← method.basicBlocks[currIndex]?
      let (visited, topoSorted) ← (currBlock.successor.getFollowing.map (·.blockIndex)).foldlM
          (visitUnlessMarked (method.topologicalSortImpl fuel))
          (visited.set currIndex true, topoSorted)
      some (visited, topoSorted ++ [method.blockIndex currIndex])

/-- The first block always stays first.  A recursion enters every block at
most once, so its depth is at most the number of blocks. -/
def getTopologicalSort (method : CfgMethod) : Option (List CfgBlockIndex) :=
  let blocks := method.basicBlocks.length
  if blocks = 0 then some []
  else do
    let (_, topoSorted) ← (List.range' 1 (blocks - 1)).foldlM
      (visitUnlessMarked (method.topologicalSortImpl blocks))
      ((List.replicate blocks false).set 0 true, [])
    some (method.blockIndex 0 :: topoSorted.reverse)

/-- Names that can be added one after the other. -/
def FreshAll (method : CfgMethod) (names : List String) : Prop :=
  names.Nodup ∧ ∀ name ∈ names, method.isFreshLocalName name = true

def withLabels (method : CfgMethod) (names : List String) : CfgMethod :=
  { method with labels := method.labels ++ names }

theorem isFreshLocalName_iff (method : CfgMethod) (name : String) :
    method.isFreshLocalName name = true ↔
      (∀ x ∈ method.formalReturns, x.name ≠ name) ∧
      (∀ x ∈ method.localVars, x.name ≠ name) ∧
      name ∉ method.labels ∧ name ∉ method.basicBlocksLabels := by
  simp only [isFreshLocalName, Bool.and_eq_true, List.all_eq_true,
    bne_iff_ne, Bool.not_eq_true', List.contains_eq_mem, decide_eq_false_iff_not, and_assoc]
  have hlabels : (∀ x ∈ method.basicBlocksLabels, x ≠ name) ↔ name ∉ method.basicBlocksLabels := by
    constructor
    · intro h hname
      exact h name hname rfl
    · intro h x hx heq
      exact h (heq ▸ hx)
  rw [hlabels]

theorem freshAll_nil (method : CfgMethod) : method.FreshAll [] := ⟨List.nodup_nil, by simp⟩

theorem freshAll_append (method : CfgMethod) (names names' : List String) :
    method.FreshAll (names ++ names') ↔
      method.FreshAll names ∧ (method.withLabels names).FreshAll names' := by
  simp only [FreshAll, List.nodup_append, isFreshLocalName_iff, withLabels, List.mem_append]
  constructor
  · rintro ⟨⟨hnodup, hnodup', hdisjoint⟩, hfresh⟩
    refine ⟨⟨hnodup, fun name h => hfresh name (.inl h)⟩, hnodup', ?_⟩
    intro name hname
    obtain ⟨hreturns, hvars, hlabels, hblocks⟩ := hfresh name (.inr hname)
    refine ⟨hreturns, hvars, ?_, hblocks⟩
    rintro (h | h)
    · exact hlabels h
    · exact hdisjoint name h name hname rfl
  · rintro ⟨⟨hnodup, hfresh⟩, hnodup', hfresh'⟩
    refine ⟨⟨hnodup, hnodup', ?_⟩, ?_⟩
    · intro name hname name' hname' heq
      exact (hfresh' name' hname').2.2.1 (.inr (heq ▸ hname))
    · rintro name (hname | hname)
      · exact hfresh name hname
      · obtain ⟨hreturns, hvars, hlabels, hblocks⟩ := hfresh' name hname
        exact ⟨hreturns, hvars, fun h => hlabels (.inl h), hblocks⟩

theorem addLabels_eq_some_iff (method method' : CfgMethod) (names : List String) :
    names.foldlM addLabel method = some method' ↔
      method.FreshAll names ∧ method' = method.withLabels names := by
  induction names generalizing method with
  | nil => simp [freshAll_nil, withLabels, eq_comm]
  | cons name names ih =>
    have hsingle : method.FreshAll [name] ↔ method.isFreshLocalName name = true := by
      simp [FreshAll]
    rw [← List.singleton_append, freshAll_append, hsingle, List.singleton_append, List.foldlM_cons]
    have hlabels : (method.withLabels [name]).withLabels names =
        method.withLabels (name :: names) := by
      simp [withLabels]
    by_cases hfresh : method.isFreshLocalName name = true
    · have hadd : method.addLabel name = some (method.withLabels [name]) := by
        simp [addLabel, hfresh, withLabels]
      rw [hadd, Option.bind_eq_bind, Option.bind_some, ih, hlabels]
      simp [hfresh]
    · simp [addLabel, hfresh]

/-- A method is the result of adding statements to another one: it has more
labels, which were fresh, and other blocks in place of the old ones. -/
structure Extends (method method' : CfgMethod) (names : List String) : Prop where
  fresh : method.FreshAll names
  eq : method' = { method.withLabels names with
    basicBlocks := method'.basicBlocks }
  length_eq : method'.basicBlocks.length = method.basicBlocks.length

namespace Extends

variable {method method' method'' : CfgMethod} {names names' : List String}

theorem refl (method : CfgMethod) : Extends method method [] :=
  ⟨freshAll_nil method, by simp [withLabels], rfl⟩

theorem uuid_eq (h : Extends method method' names) : method'.uuid = method.uuid := by
  rw [h.eq]
  rfl

theorem trans (h : Extends method method' names) (h' : Extends method' method'' names') :
    Extends method method'' (names ++ names') := by
  refine ⟨?_, ?_, h'.length_eq.trans h.length_eq⟩
  · refine (freshAll_append _ _ _).mpr ⟨h.fresh, ?_⟩
    have hfresh := h'.fresh
    rw [h.eq] at hfresh
    exact hfresh
  · rw [h'.eq, h.eq]
    simp [withLabels]

/-- Names are fresh after an extension if they are so together with those of
the extension. -/
theorem freshAll (h : Extends method method' names)
    (hfresh : method.FreshAll (names ++ names')) : method'.FreshAll names' := by
  have hfresh' := ((freshAll_append _ _ _).mp hfresh).2
  rw [h.eq]
  exact hfresh'

end Extends

theorem extends_of_addStmt {method method' : CfgMethod} {stmt : Stmt}
    (h : method.addStmt index stmt = some method') :
    Extends method method' (gatherLabels stmt) := by
  simp only [addStmt, Option.bind_eq_bind, Option.bind_eq_some_iff, Option.some.injEq] at h
  obtain ⟨labelled, hlabelled, block, -, rfl⟩ := h
  obtain ⟨hfresh, rfl⟩ := (addLabels_eq_some_iff _ _ _).mp hlabelled
  exact ⟨hfresh, rfl, by simp [withLabels]⟩

theorem exists_addStmt {method : CfgMethod} {stmt : Stmt}
    (hfresh : method.FreshAll (gatherLabels stmt))
    (hindex : index.blockIndex < method.basicBlocks.length) :
    ∃ method', method.addStmt index stmt = some method' := by
  have hlabels := (addLabels_eq_some_iff method _ _).mpr ⟨hfresh, rfl⟩
  simp [addStmt, hlabels, withLabels, hindex]

theorem extends_of_addStmts {method method' : CfgMethod} {stmts : List Stmt}
    (h : method.addStmts index stmts = some method') :
    Extends method method' (stmts.flatMap gatherLabels) := by
  induction stmts generalizing method with
  | nil =>
    simp only [addStmts, List.foldlM_nil, Option.pure_def, Option.some.injEq] at h
    subst h
    exact Extends.refl method
  | cons stmt stmts ih =>
    simp only [addStmts, List.foldlM_cons, Option.bind_eq_bind, Option.bind_eq_some_iff] at h
    obtain ⟨middle, hmiddle, hrest⟩ := h
    exact (extends_of_addStmt hmiddle).trans (ih hrest)

theorem exists_addStmts {method : CfgMethod} {stmts : List Stmt}
    (hfresh : method.FreshAll (stmts.flatMap gatherLabels))
    (hindex : index.blockIndex < method.basicBlocks.length) :
    ∃ method', method.addStmts index stmts = some method' := by
  induction stmts generalizing method with
  | nil => exact ⟨method, rfl⟩
  | cons stmt stmts ih =>
    rw [List.flatMap_cons] at hfresh
    have hfirst := ((freshAll_append _ _ _).mp hfresh).1
    obtain ⟨middle, hmiddle⟩ := exists_addStmt hfirst hindex
    have hextends := extends_of_addStmt hmiddle
    obtain ⟨method', hmethod'⟩ := ih (hextends.freshAll hfresh) (hextends.length_eq ▸ hindex)
    refine ⟨method', ?_⟩
    simp only [addStmts, List.foldlM_cons, hmiddle, Option.bind_eq_bind, Option.bind_some]
    exact hmethod'

theorem extends_of_setSuccessor {method method' : CfgMethod}
    (h : method.setSuccessor index successor = some method') :
    Extends method method' [] := by
  unfold setSuccessor at h
  split at h
  · simp only [Option.map_eq_some_iff] at h
    obtain ⟨block, -, rfl⟩ := h
    exact ⟨freshAll_nil _, by simp [withLabels], by simp⟩
  · cases h

theorem exists_setSuccessor {method : CfgMethod} (huuid : method.uuid = index.methodUuid)
    (hindex : index.blockIndex < method.basicBlocks.length) :
    ∃ method', method.setSuccessor index successor = some method' := by
  simp [setSuccessor, huuid, hindex]

theorem successor_of_setSuccessor {method method' : CfgMethod}
    (h : method.setSuccessor index successor = some method') :
    ∃ block, method'.basicBlocks[index.blockIndex]? = some block ∧ block.successor = successor := by
  unfold setSuccessor at h
  split at h
  · simp only [Option.map_eq_some_iff] at h
    obtain ⟨block, hblock, rfl⟩ := h
    have hindex := (List.getElem?_eq_some_iff.mp hblock).1
    exact ⟨{ block with successor := successor }, by simp [hindex], rfl⟩
  · cases h

theorem findFreshLabel_eq (method : CfgMethod) (fuel index : Nat) :
    method.findFreshLabel fuel index = method.findFreshName "l" fuel index := by
  induction fuel generalizing index with
  | zero => rfl
  | succ fuel ih => rw [findFreshLabel, findFreshName, ih]

/-- The name that the loop finds is new, and it begins with the stem. -/
theorem findFreshName_spec {stem : String} {method : CfgMethod} {index : Nat} {next : Nat}
    (h : method.findFreshName stem fuel index = some (name, next)) :
    method.isFreshLocalName name = true ∧ name ∉ method.reservedLabels ∧
      ∃ number : Nat, name = stem ++ toString number := by
  induction fuel generalizing index with
  | zero => cases h
  | succ fuel ih =>
    rw [findFreshName] at h
    split at h
    · exact ih h
    · next hcheck =>
        simp only [Option.some.injEq, Prod.mk.injEq] at h
        obtain ⟨rfl, -⟩ := h
        simp only [Bool.or_eq_true, Bool.not_eq_true', List.contains_eq_mem,
          decide_eq_true_eq, not_or, Bool.not_eq_false] at hcheck
        exact ⟨hcheck.1, hcheck.2, index, rfl⟩

theorem findFreshLabel_spec {method : CfgMethod} {index : Nat} {next : Nat}
    (h : method.findFreshLabel fuel index = some (name, next)) :
    method.isFreshLocalName name = true ∧ name ∉ method.reservedLabels ∧
      ∃ number : Nat, name = "l" ++ toString number := by
  rw [findFreshLabel_eq] at h
  exact findFreshName_spec h

theorem mem_usedNames_of_not_fresh {method : CfgMethod}
    (h : (!method.isFreshLocalName name || method.reservedLabels.contains name) = true) :
    name ∈ method.usedNames := by
  simp only [Bool.or_eq_true, Bool.not_eq_true', List.contains_eq_mem, decide_eq_true_eq] at h
  simp only [usedNames, List.mem_append, List.mem_map]
  rcases h with h | h
  · have hused := mt (isFreshLocalName_iff method name).mpr (by simp [h])
    by_contra hcontra
    simp only [not_or, not_exists, not_and] at hcontra
    apply hused
    exact ⟨fun x hx => hcontra.1.1.1.1 x hx, fun x hx => hcontra.1.1.1.2 x hx,
      hcontra.1.1.2, hcontra.1.2⟩
  · exact .inr h

/-- A loop that finds nothing tried that many different used names. -/
theorem candidates_used {stem : String} {method : CfgMethod} {index : Nat}
    (h : method.findFreshName stem fuel index = none) :
    ∀ number, index ≤ number → number < index + fuel →
      stem ++ toString number ∈ method.usedNames := by
  induction fuel generalizing index with
  | zero => omega
  | succ fuel ih =>
    rw [findFreshName] at h
    split at h
    · next hcheck =>
        intro number hge hlt
        rcases Nat.eq_or_lt_of_le hge with rfl | hgt
        · exact mem_usedNames_of_not_fresh hcheck
        · exact ih h number hgt (by omega)
    · cases h

theorem exists_findFreshName (stem : String) (method : CfgMethod) (index : Nat) :
    ∃ found, method.findFreshName stem (method.usedNames.length + 1) index = some found := by
  cases hfind : method.findFreshName stem (method.usedNames.length + 1) index with
  | some found => exact ⟨found, rfl⟩
  | none =>
    -- too many different names for the list of the used ones
    let candidates := (List.range' index
      (method.usedNames.length + 1)).map fun number => stem ++ toString number
    have hnodup : candidates.Nodup := by
      refine List.Nodup.map ?_ List.nodup_range'
      exact (append_left_injective stem).comp toString_injective
    have hsubset : candidates ⊆ method.usedNames := by
      intro name hname
      obtain ⟨number, hnumber, rfl⟩ := List.mem_map.mp hname
      rw [List.mem_range'_1] at hnumber
      exact candidates_used hfind number hnumber.1 hnumber.2
    have hlength := (List.Nodup.subperm hnodup hsubset).length_le
    simp only [candidates, List.length_map, List.length_range'] at hlength
    omega

theorem exists_getFreshLabelName (method : CfgMethod) :
    ∃ found, method.getFreshLabelName = some found := by
  obtain ⟨found, hfound⟩ := exists_findFreshName "l" method method.freshLabelIndex
  rw [getFreshLabelName, findFreshLabel_eq, hfound]
  exact ⟨_, rfl⟩

theorem isValidLabel_fresh (chars : CharClass) (number : Nat) :
    isValidLabel chars ("l" ++ toString number) = true := by
  have hlist : ("l" ++ toString number).toList = 'l' :: Nat.toDigits 10 number := by
    rw [String.toList_append]
    change "l".toList ++ (Nat.repr number).toList = _
    rw [Nat.toList_repr]
    rfl
  have hdigits : ∀ c ∈ Nat.toDigits 10 number, (chars.isAlphanumeric c || c == '_') = true := by
    intro c hc
    rw [chars.alphanumeric_digit c
      (Nat.isDigit_of_mem_toDigits (by decide) (by decide) hc), Bool.true_or]
  have hreturn : ("l" ++ toString number) ≠ returnLabel := by
    intro heq
    have hhead := congrArg (fun label => label.toList.head?) heq
    simp only [hlist, List.head?_cons] at hhead
    exact absurd hhead (by decide)
  simp only [isValidLabel, hlist, List.take_succ_cons, List.take_zero,
    List.drop_succ_cons, List.drop_zero, List.all_cons, List.all_nil,
    chars.alphabetic_l, Bool.true_or, Bool.true_and, Bool.and_true,
    Bool.and_eq_true, List.all_eq_true, bne_iff_ne]
  exact ⟨hdigits, hreturn⟩
/-- Every block jumps to blocks that exist. -/
def TargetsInRange (cfg : CfgMethod) : Prop :=
  ∀ block ∈ cfg.basicBlocks, ∀ target ∈ block.successor.targets, target < cfg.basicBlocks.length

/-- What the operations that build a method ensure. -/
structure WellFormed (chars : CharClass) (cfg : CfgMethod) : Prop where
  length_labels : cfg.basicBlocksLabels.length = cfg.basicBlocks.length
  valid_labels : ∀ label ∈ cfg.basicBlocksLabels, isValidLabel chars label = true
  nodup_labels : cfg.basicBlocksLabels.Nodup
  targets_bound : ∀ block ∈ cfg.basicBlocks,
    ∀ target ∈ block.successor.getFollowing,
      target.methodUuid = cfg.uuid ∧ target.blockIndex < cfg.basicBlocks.length
  mem_labels : ∀ block ∈ cfg.basicBlocks,
    ∀ label ∈ block.stmts.flatMap gatherLabels, label ∈ cfg.labels

namespace WellFormed

variable {chars : CharClass} {method method' : CfgMethod}

theorem targetsInRange (h : method.WellFormed chars) : method.TargetsInRange := by
  intro block hblock target htarget
  obtain ⟨index, hindex, rfl⟩ := List.mem_map.mp htarget
  exact (h.targets_bound block hblock index hindex).2

end WellFormed

end CfgMethod

end Prusti.Cfg

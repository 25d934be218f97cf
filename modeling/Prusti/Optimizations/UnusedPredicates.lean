/-
The deletion of unused predicates: predicates that nothing mentions are deleted,
and the bodies of those that are never folded or unfolded are eliminated.  The
sets of names are lists, of which only the members matter.
-/
import Prusti.Lib.Dfs
import Prusti.Vir.Interp
import Prusti.Vir.Predicate
import Prusti.Cfg.Exprs

namespace Prusti.Optimizations

open Prusti.Vir Prusti.Cfg Prusti.Lib

/-- The predicate that a node uses. -/
def usedPredicate? : Expr → Option String
  | .predicateAccessPredicate name _ _ _ | .unfolding name _ _ _ _ _ => some name
  | _ => none

/-- The predicate that a node unfolds. -/
def foldedPredicate? : Expr → Option String
  | .unfolding name _ _ _ _ _ => some name
  | _ => none

section Statements

mutual

/-- The predicates that a statement and its nested statements fold or unfold. -/
def foldNames : Stmt → List String
  | .fold name _ _ _ _ | .unfold name _ _ _ => [name]
  | .packageMagicWand _ stmts _ _ _ => allFoldNames stmts
  | .ite _ thenStmts elseStmts => allFoldNames thenStmts ++ allFoldNames elseStmts
  | _ => []

def allFoldNames : List Stmt → List String
  | [] => []
  | stmt :: stmts => foldNames stmt ++ allFoldNames stmts

end

mutual

/-- The expressions of a statement that the collector walks: the arguments of
`fold` and `unfold` are not among them. -/
def walkedExprs : Stmt → List Expr
  | .fold _ _ _ _ _ | .unfold _ _ _ _ => []
  | .packageMagicWand wand stmts _ _ _ => wand :: allWalkedExprs stmts
  | .ite guard thenStmts elseStmts =>
    guard :: (allWalkedExprs thenStmts ++ allWalkedExprs elseStmts)
  | stmt => stmt.ownExprs

def allWalkedExprs : List Stmt → List Expr
  | [] => []
  | stmt :: stmts => walkedExprs stmt ++ allWalkedExprs stmts

end

mutual

/-- The arguments of `fold` and `unfold`. -/
def foldArgs : Stmt → List Expr
  | .fold _ args _ _ _ | .unfold _ args _ _ => args
  | .packageMagicWand _ stmts _ _ _ => allFoldArgs stmts
  | .ite _ thenStmts elseStmts => allFoldArgs thenStmts ++ allFoldArgs elseStmts
  | _ => []

def allFoldArgs : List Stmt → List Expr
  | [] => []
  | stmt :: stmts => foldArgs stmt ++ allFoldArgs stmts

end

mutual

/-- An expression of a statement is walked or is an argument of `fold` or
`unfold`. -/
theorem mem_exprs_iff (stmt : Stmt) (expr : Expr) :
    expr ∈ stmt.exprs ↔ expr ∈ walkedExprs stmt ∨ expr ∈ foldArgs stmt := by
  cases stmt with
  | packageMagicWand wand stmts =>
    rw [Stmt.exprs, walkedExprs, foldArgs, List.mem_cons, List.mem_cons,
      mem_allExprs_iff stmts expr, or_assoc]
  | ite guard thenStmts elseStmts =>
    rw [Stmt.exprs, walkedExprs, foldArgs, List.mem_cons, List.mem_cons,
      List.mem_append, List.mem_append, List.mem_append,
      mem_allExprs_iff thenStmts expr, mem_allExprs_iff elseStmts expr]
    tauto
  | fold | unfold =>
    rw [Stmt.exprs, walkedExprs, foldArgs, Stmt.ownExprs]
    · simp
    all_goals simp
  | _ => simp [Stmt.exprs, walkedExprs, foldArgs]

theorem mem_allExprs_iff (stmts : List Stmt) (expr : Expr) :
    expr ∈ Stmt.allExprs stmts ↔ expr ∈ allWalkedExprs stmts ∨ expr ∈ allFoldArgs stmts := by
  cases stmts with
  | nil => simp [Stmt.allExprs, allWalkedExprs, allFoldArgs]
  | cons stmt stmts =>
    rw [Stmt.allExprs, allWalkedExprs, allFoldArgs, List.mem_append,
      List.mem_append, List.mem_append, mem_exprs_iff stmt expr, mem_allExprs_iff stmts expr]
    tauto

end

end Statements

/-- The expressions of a function. -/
def functionExprs (function : Function) : List Expr :=
  function.pres ++ function.posts ++ function.body.toList

section Collector

variable (pick : Expr → Option String) (methods : List CfgMethod) (functions : List Function)

/-- The expressions that the collector walks in methods and functions. -/
def collectedExprs : List Expr :=
  methods.flatMap (fun method => allWalkedExprs method.stmts ++ method.guards) ++
    functions.flatMap functionExprs

/-- What the collector finds. -/
def collected : List String :=
  methods.flatMap (fun method => allFoldNames method.stmts) ++
    (collectedExprs methods functions).flatMap fun expr => expr.walked.filterMap pick

/-- The predicates used in methods and functions.  The token of dead borrows is
used, but appears only when the program is encoded to Viper. -/
def usedPredicates : List String := "DeadBorrowToken$" :: collected usedPredicate? methods functions

def foldedPredicates : List String := collected foldedPredicate? methods functions

end Collector

/-- The predicates used in the body of a predicate. -/
def usedInPredicate : Predicate → Option (List String)
  | .struct predicate =>
    predicate.body.map fun body => body.walked.filterMap usedPredicate?
  | .enum predicate =>
    some (predicate.discriminantLoc.walked.filterMap usedPredicate? ++
      predicate.discriminantBounds.walked.filterMap usedPredicate? ++
      predicate.variants.flatMap fun variant =>
        variant.guard.walked.filterMap usedPredicate? ++
          variant.predicate.name ::
            variant.predicate.body.toList.flatMap fun body =>
              body.walked.filterMap usedPredicate?)
  | .bodyless _ _ => none

/-- The predicates used in each predicate. -/
def getUsedPredicatesInPredicateMap (predicates : List Predicate) : HashMap String (List String) :=
  predicates.foldl (fun map predicate =>
    match usedInPredicate predicate with
    | some used => map.insert predicate.name used
    | none => map) HashMap.empty

def isStruct : Predicate → Bool
  | .struct _ => true
  | _ => false

/-- A predicate that is never folded or unfolded loses its body. -/
def eliminateBody (folded : List String) : Predicate → Predicate
  | .struct predicate =>
    if folded.contains predicate.name then .struct predicate
    else .struct { predicate with body := none }
  | predicate => predicate

/-- The map without the predicates that lose their bodies. -/
def updateMap (folded : List String) (predicates : List Predicate)
    (map : HashMap String (List String)) : HashMap String (List String) :=
  predicates.foldl (fun map predicate =>
    if !folded.contains predicate.name && isStruct predicate then
      map.erase predicate.name
    else map) map

/-- Visit a predicate and those that it uses.  Only the predicates of the map
are gone through, each of them once, so the depth is bounded by their number. -/
def visitPredicate (map : HashMap String (List String)) : Nat → List String → String → List String
  | 0, visited, _ => visited
  | fuel + 1, visited, toVisit =>
    if visited.contains toVisit then visited
    else
      match map.get? toVisit with
      | some used => used.foldl (visitPredicate map fuel) (toVisit :: visited)
      | none => toVisit :: visited

/-- The predicates that can be reached from the given ones. -/
def computeReachablePredicates (map : HashMap String (List String))
    (used : List String) : List String :=
  used.foldl (visitPredicate map (map.entries.length + 1)) []

/-- Delete all unused predicates and eliminate the bodies of predicates that are
never folded or unfolded. -/
def deleteUnusedPredicates (methods : List CfgMethod) (functions : List Function)
    (predicates : List Predicate) : List Predicate :=
  let folded := foldedPredicates methods functions
  let map := updateMap folded predicates (getUsedPredicatesInPredicateMap predicates)
  let reachable := computeReachablePredicates map (usedPredicates methods functions)
  (predicates.map (eliminateBody folded)).filter fun predicate =>
    reachable.contains predicate.name

section Reachable

variable {map : HashMap String (List String)}

/-- The predicates that a predicate of the map uses. -/
def uses (map : HashMap String (List String)) (name : String) : List String :=
  (map.get? name).getD []

/-- The predicates of the map that have not been visited. -/
def unvisited (map : HashMap String (List String)) (visited : List String) : List String :=
  map.keys.filter fun key => !visited.contains key

theorem unvisited_cons_lt {visited : List String} {name : String} {used : List String}
    (hget : map.get? name = some used) (hname : name ∉ visited) :
    (unvisited map (name :: visited)).length < (unvisited map visited).length := by
  obtain ⟨key, hkey, heq⟩ := HashMap.exists_key_of_get? hget
  rw [beq_iff_eq] at heq
  subst heq
  have hfilter : unvisited map (key :: visited) =
      (unvisited map visited).filter fun other => !(other == key) := by
    unfold unvisited
    rw [List.filter_filter]
    apply List.filter_congr
    intro other _
    rw [List.contains_cons, Bool.not_or]
  rw [hfilter, List.length_filter_lt_length_iff_exists]
  refine ⟨key, ?_, by simp⟩
  unfold unvisited
  rw [List.mem_filter]
  exact ⟨hkey, by simpa using hname⟩

theorem unvisited_le {visited visited' : List String} (h : ∀ name ∈ visited, name ∈ visited') :
    (unvisited map visited').length ≤ (unvisited map visited).length := by
  unfold unvisited
  rw [← List.countP_eq_length_filter, ← List.countP_eq_length_filter]
  apply List.countP_mono_left
  intro key _ hkey
  simp only [Bool.not_eq_true', List.contains_eq_mem, decide_eq_false_iff_not] at hkey ⊢
  exact fun hmem => hkey (h key hmem)

theorem setOf_mem_cons (name : String) (visited : List String) :
    { other | other ∈ name :: visited } = insert name { other | other ∈ visited } := by
  ext other
  simp

/-- The visits explore the graph of the predicates. -/
theorem explore_visitPredicate (fuel : Nat) (work visited : List String)
    (hfuel : (unvisited map visited).length ≤ fuel) :
    ∃ left, Explore (uses map) { name | name ∈ visited } work left
      { name | name ∈ work.foldl (visitPredicate map (fuel + 1)) visited } := by
  induction fuel using Nat.strong_induction_on generalizing work visited with
  | h fuel ih =>
  induction work generalizing visited with
  | nil => exact ⟨[], .nil⟩
  | cons name work ihwork =>
    rw [List.foldl_cons]
    by_cases hname : name ∈ visited
    · -- visited before
      have hskip : visitPredicate map (fuel + 1) visited name = visited := by
        simp [visitPredicate, hname]
      obtain ⟨left, hleft⟩ := ihwork visited hfuel
      rw [hskip]
      exact ⟨left, .skip hname hleft⟩
    · have hinner : ∃ below, Explore (uses map) (insert name { other | other ∈ visited })
          (uses map name) below
          { other | other ∈ visitPredicate map (fuel + 1) visited name } := by
        rw [← setOf_mem_cons]
        cases hget : map.get? name with
        | none =>
          have hvisit : visitPredicate map (fuel + 1) visited name = name :: visited := by
            simp [visitPredicate, hname, hget]
          have huses : uses map name = [] := by simp [uses, hget]
          rw [hvisit, huses]
          exact ⟨[], .nil⟩
        | some used =>
          have hlt := unvisited_cons_lt hget hname
          obtain ⟨fuel', rfl⟩ : ∃ fuel', fuel = fuel' + 1 := ⟨fuel - 1, by omega⟩
          have hvisit : visitPredicate map (fuel' + 1 + 1) visited name =
              used.foldl (visitPredicate map (fuel' + 1)) (name :: visited) := by
            simp [visitPredicate, hname, hget]
          have huses : uses map name = used := by simp [uses, hget]
          rw [hvisit, huses]
          exact ih fuel' (by omega) used (name :: visited) (by omega)
      obtain ⟨below, hbelow⟩ := hinner
      have hle : (unvisited map (visitPredicate map (fuel + 1) visited name)).length ≤ fuel := by
        refine (unvisited_le fun other hother => ?_).trans hfuel
        exact (hbelow.mem_marked_iff other).mpr (.inl (Set.mem_insert_of_mem _ hother))
      obtain ⟨left, hleft⟩ := ihwork _ hle
      exact ⟨_, .visit hname hbelow hleft⟩

/-- What is reached from the used predicates. -/
theorem mem_computeReachablePredicates_iff (map : HashMap String (List String))
    (used : List String) (name : String) :
    name ∈ computeReachablePredicates map used ↔ ∃ root ∈ used, Reaches (uses map) root name := by
  have hfuel : (unvisited map []).length ≤ map.entries.length := by
    unfold unvisited HashMap.keys
    exact (List.length_filter_le _ _).trans (List.length_map _).le
  obtain ⟨left, hleft⟩ := explore_visitPredicate map.entries.length used [] hfuel
  have hempty : { name | name ∈ ([] : List String) } = (∅ : Set String) := by
    ext
    simp
  rw [hempty] at hleft
  exact hleft.mem_marked_iff_reaches name

end Reachable

section Map

variable {predicates : List Predicate}

theorem eliminateBody_of_folded {folded : List String} {predicate : StructPredicate}
    (h : folded.contains predicate.name = true) :
    eliminateBody folded (.struct predicate) = .struct predicate := if_pos h

theorem eliminateBody_of_not_folded {folded : List String}
    {predicate : StructPredicate} (h : folded.contains predicate.name = false) :
    eliminateBody folded (.struct predicate) = .struct { predicate with body := none } :=
  if_neg (by rw [h]; decide)

@[simp] theorem name_eliminateBody (folded : List String) (predicate : Predicate) :
    (eliminateBody folded predicate).name = predicate.name := by
  cases predicate with
  | struct predicate =>
    cases h : folded.contains predicate.name with
    | true => rw [eliminateBody_of_folded h]
    | false =>
      rw [eliminateBody_of_not_folded h]
      rfl
  | enum | bodyless => rfl

/-- A step of the construction of the map. -/
def insertUsed (map : HashMap String (List String)) (predicate : Predicate) :
    HashMap String (List String) :=
  match usedInPredicate predicate with
  | some used => map.insert predicate.name used
  | none => map

theorem get?_insertUsed (map : HashMap String (List String)) (predicate : Predicate)
    (name : String) :
    (insertUsed map predicate).get? name =
      if predicate.name = name then (usedInPredicate predicate).or (map.get? name)
      else map.get? name := by
  unfold insertUsed
  cases usedInPredicate predicate with
  | none => simp
  | some used => simp only [HashMap.get?_insert, beq_iff_eq, Option.some_or]

theorem get?_foldl_insertUsed_of_notMem (predicates : List Predicate)
    (map : HashMap String (List String)) {name : String}
    (hname : name ∉ predicates.map Predicate.name) :
    (predicates.foldl insertUsed map).get? name = map.get? name := by
  induction predicates generalizing map with
  | nil => rfl
  | cons predicate predicates ih =>
    rw [List.map_cons, List.mem_cons, not_or] at hname
    rw [List.foldl_cons, ih _ hname.2, get?_insertUsed, if_neg (Ne.symm hname.1)]

theorem get?_foldl_insertUsed_of_mem (map : HashMap String (List String))
    (hnodup : (predicates.map Predicate.name).Nodup) {predicate : Predicate}
    (hmem : predicate ∈ predicates) :
    (predicates.foldl insertUsed map).get? predicate.name =
      (usedInPredicate predicate).or (map.get? predicate.name) := by
  induction predicates generalizing map with
  | nil => cases hmem
  | cons head predicates ih =>
    rw [List.map_cons, List.nodup_cons] at hnodup
    rw [List.foldl_cons]
    rcases List.mem_cons.mp hmem with rfl | hmem
    · rw [get?_foldl_insertUsed_of_notMem _ _ hnodup.1, get?_insertUsed, if_pos rfl]
    · have hne : head.name ≠ predicate.name := fun heq =>
        hnodup.1 (heq ▸ List.mem_map_of_mem hmem)
      rw [ih _ hnodup.2 hmem, get?_insertUsed, if_neg hne]

/-- The predicates that lose their bodies are taken from the map. -/
theorem get?_updateMap (folded : List String) (predicates : List Predicate)
    (map : HashMap String (List String)) (name : String) :
    (updateMap folded predicates map).get? name =
      if ∃ predicate ∈ predicates, predicate.name = name ∧
          (!folded.contains name && isStruct predicate) = true then none
      else map.get? name := by
  induction predicates generalizing map with
  | nil => simp [updateMap]
  | cons head predicates ih =>
    have hstep : (updateMap folded (head :: predicates) map) = updateMap folded predicates
          (if !folded.contains head.name && isStruct head then map.erase head.name
            else map) := rfl
    rw [hstep, ih]
    simp only [List.exists_mem_cons_iff]
    by_cases hrest : ∃ predicate ∈ predicates, predicate.name = name ∧
        (!folded.contains name && isStruct predicate) = true
    · rw [if_pos hrest, if_pos (.inr hrest)]
    · rw [if_neg hrest]
      by_cases hname : head.name = name
      · subst hname
        split
        · next h => rw [HashMap.get?_erase, if_pos BEq.rfl, if_pos (.inl ⟨rfl, h⟩)]
        · next h =>
            rw [if_neg]
            rintro (⟨-, h'⟩ | h')
            · exact h h'
            · exact hrest h'
      · have hget : (if !folded.contains head.name && isStruct head then
            map.erase head.name else map).get? name = map.get? name := by
          split
          · rw [HashMap.get?_erase, if_neg (by simpa using hname)]
          · rfl
        rw [hget, if_neg]
        rintro (⟨h', -⟩ | h')
        · exact hname h'
        · exact hrest h'

/-- What the final map says about the predicates. -/
theorem uses_of_mem (folded : List String)
    (hnodup : (predicates.map Predicate.name).Nodup) {predicate : Predicate}
    (hmem : predicate ∈ predicates) :
    uses (updateMap folded predicates (getUsedPredicatesInPredicateMap predicates))
        predicate.name =
      (usedInPredicate (eliminateBody folded predicate)).getD [] := by
  have hmap : (getUsedPredicatesInPredicateMap predicates).get? predicate.name =
      usedInPredicate predicate := by
    have h := get?_foldl_insertUsed_of_mem HashMap.empty hnodup hmem
    rw [HashMap.get?_empty, Option.or_none] at h
    exact h
  have hunique : ∀ other ∈ predicates, other.name = predicate.name →
      other = predicate := fun other hother heq =>
    List.inj_on_of_nodup_map hnodup hother hmem heq
  unfold uses
  rw [get?_updateMap, hmap]
  congr 1
  split
  · next h =>
      obtain ⟨other, hother, heq, hcond⟩ := h
      rw [hunique other hother heq, Bool.and_eq_true] at hcond
      cases predicate with
      | struct predicate =>
        have hfolded : folded.contains predicate.name = false := by
          rw [← Bool.not_eq_true']
          exact hcond.1
        rw [eliminateBody_of_not_folded hfolded]
        rfl
      | enum | bodyless => cases hcond.2
  · next h =>
      cases predicate with
      | struct predicate =>
        have hfolded : folded.contains predicate.name = true := by
          by_contra hne
          refine h ⟨_, hmem, rfl, ?_⟩
          rw [Bool.not_eq_true] at hne
          change (!folded.contains predicate.name && true) = true
          rw [hne]
          rfl
        rw [eliminateBody_of_folded hfolded]
      | enum | bodyless => rfl

theorem uses_of_notMem (folded : List String) {name : String}
    (hname : name ∉ predicates.map Predicate.name) :
    uses (updateMap folded predicates (getUsedPredicatesInPredicateMap predicates)) name = [] := by
  have hmap : (getUsedPredicatesInPredicateMap predicates).get? name = none :=
    get?_foldl_insertUsed_of_notMem predicates HashMap.empty hname
  unfold uses
  rw [get?_updateMap, hmap]
  split <;> rfl

end Map

section Kept

variable (methods : List CfgMethod) (functions : List Function) (predicates : List Predicate)

/-- A predicate of the program, with the body that it keeps. -/
def keptPredicate (predicate : Predicate) : Predicate :=
  eliminateBody (foldedPredicates methods functions) predicate

/-- The names that are kept: those that the methods and functions use, and those
that the bodies of kept predicates use. -/
inductive Kept : String → Prop where
  | used {name : String} (h : name ∈ usedPredicates methods functions) : Kept name
  | body {predicate : Predicate} {used : List String} {name : String}
      (hmem : predicate ∈ predicates) (hkept : Kept predicate.name)
      (hused : usedInPredicate (keptPredicate methods functions predicate) = some used)
      (hname : name ∈ used) : Kept name

variable {methods functions predicates}

theorem kept_iff_reachable (hnodup : (predicates.map Predicate.name).Nodup) (name : String) :
    Kept methods functions predicates name ↔ name ∈ computeReachablePredicates
        (updateMap (foldedPredicates methods functions) predicates
          (getUsedPredicatesInPredicateMap predicates))
        (usedPredicates methods functions) := by
  rw [mem_computeReachablePredicates_iff]
  constructor
  · intro h
    induction h with
    | used h => exact ⟨_, h, .refl⟩
    | body hmem _ hused hname ih =>
      obtain ⟨root, hroot, hreach⟩ := ih
      refine ⟨root, hroot, hreach.tail ?_⟩
      unfold Edge
      rw [uses_of_mem _ hnodup hmem]
      change _ ∈ (usedInPredicate (keptPredicate methods functions _)).getD []
      rw [hused]
      exact hname
  · rintro ⟨root, hroot, hreach⟩
    induction hreach with
    | refl => exact .used hroot
    | @tail source target _ hedge ih =>
      unfold Edge at hedge
      by_cases hsource : source ∈ predicates.map Predicate.name
      · obtain ⟨predicate, hmem, rfl⟩ := List.mem_map.mp hsource
        rw [uses_of_mem _ hnodup hmem] at hedge
        change _ ∈ (usedInPredicate (keptPredicate methods functions predicate)).getD []
          at hedge
        cases hused : usedInPredicate (keptPredicate methods functions predicate) with
        | none =>
          rw [hused] at hedge
          cases hedge
        | some used =>
          rw [hused] at hedge
          exact .body hmem ih hused hedge
      · rw [uses_of_notMem _ hsource] at hedge
        cases hedge

/-- The predicates that the pass returns. -/
theorem mem_deleteUnusedPredicates_iff (hnodup : (predicates.map Predicate.name).Nodup)
    (result : Predicate) :
    result ∈ deleteUnusedPredicates methods functions predicates ↔
      ∃ predicate ∈ predicates, Kept methods functions predicates predicate.name ∧
        keptPredicate methods functions predicate = result := by
  unfold deleteUnusedPredicates
  rw [List.mem_filter, List.mem_map]
  constructor
  · rintro ⟨⟨predicate, hmem, rfl⟩, hreach⟩
    rw [name_eliminateBody, List.contains_iff_mem] at hreach
    exact ⟨predicate, hmem, (kept_iff_reachable hnodup _).mpr hreach, rfl⟩
  · rintro ⟨predicate, hmem, hkept, rfl⟩
    refine ⟨⟨predicate, hmem, rfl⟩, ?_⟩
    unfold keptPredicate
    rw [name_eliminateBody, List.contains_iff_mem]
    exact (kept_iff_reachable hnodup _).mp hkept

end Kept

end Prusti.Optimizations

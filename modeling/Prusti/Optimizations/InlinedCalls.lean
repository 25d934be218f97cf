/-
Which functions the inliner removes, and which of their applications remain.
-/
import Prusti.Optimizations.Inliner

namespace Prusti.Optimizations

open Prusti.Vir Prusti.Cfg Prusti.Lib

variable {function function' : Function} {expr : Expr} {result : List Function} {name : String}

section Purified

variable {functions : List Function}

variable {map : PureFunctionMap} {current : List Function}

/-- An expression reduces to a constant when the applications in it can be
replaced by the bodies of functions that do. -/
inductive ReducesToConstant (functions : List Function) : Expr → Prop where
  | const (value : Const) (pos : Position) : ReducesToConstant functions (.const value pos)
  | unaryOp {kind : UnaryOpKind} {arg : Expr} {pos : Position}
      (harg : ReducesToConstant functions arg) :
      ReducesToConstant functions (.unaryOp kind arg pos)
  | binOp {kind : BinOpKind} {left right : Expr} {pos : Position}
      (hleft : ReducesToConstant functions left)
      (hright : ReducesToConstant functions right) :
      ReducesToConstant functions (.binOp kind left right pos)
  | funcApp {function : Function} {body : Expr} {args : List Expr}
      {formalArgs : List LocalVar} {typ : Typ} {pos : Position}
      (hmem : function ∈ functions)
      (hpres : function.pres.all isOnlyPermissions = true)
      (hposts : function.posts = []) (hbody : function.body = some body)
      (hreduces : ReducesToConstant functions body) :
      ReducesToConstant functions (.funcApp function.name args formalArgs typ pos)
  | unfolding {name : String} {args : List Expr} {base : Expr} {perm : PermAmount}
      {index : Option EnumVariantIndex} {pos : Position}
      (hbase : ReducesToConstant functions base) :
      ReducesToConstant functions (.unfolding name args base perm index pos)

/-- A function whose applications reduce to a constant. -/
structure Reducible (functions : List Function) (function : Function) : Prop where
  pres : function.pres.all isOnlyPermissions = true
  posts : function.posts = []
  body : ∃ body, function.body = some body ∧ ReducesToConstant functions body

theorem tryPurify_eq_some_iff {body : Expr} :
    tryPurify function = some body ↔
      function.body = some body ∧ isConstant body = true ∧
        function.pres.all isOnlyPermissions = true ∧ function.posts = [] := by
  unfold tryPurify hasConstantBody
  cases hbody : function.body with
  | none => simp
  | some expr =>
    by_cases hconst : isConstant expr = true
    · by_cases hpres : function.pres.all isOnlyPermissions = true
      · by_cases hposts : function.posts = []
        · simp only [hconst, hpres, hposts, if_true, List.isEmpty_nil, Bool.and_self,
            Option.some.injEq, and_true]
          constructor
          · rintro rfl
            exact ⟨rfl, hconst⟩
          · exact fun h => h.1
        · simp [hconst, hpres, hposts]
      · simp [hconst, hpres]
    · simp only [hconst]
      constructor
      · intro h
        cases h
      · rintro ⟨heq, h, -⟩
        cases heq
        exact absurd h hconst

/-- What is known of the functions of the map. -/
structure MapInv (functions : List Function) (map : PureFunctionMap) : Prop where
  constant : ConstantMap map
  reducible : ∀ name, map.contains name = true →
    ∃ function ∈ functions, function.name = name ∧ Reducible functions function

/-- Only reducible functions are inlined. -/
theorem reducesToConstant_of_reducesBy (hmap : MapInv functions map)
    (h : reducesBy map expr = true) :
    ReducesToConstant functions expr := by
  fun_induction reducesBy map expr with
  | case1 value pos => exact .const value pos
  | case2 _ arg _ ih => exact .unaryOp (ih h)
  | case3 _ left right _ ihleft ihright =>
    rw [Bool.and_eq_true] at h
    exact .binOp (ihleft h.1) (ihright h.2)
  | case4 name =>
    obtain ⟨function, hmem, rfl, hpres, hposts, body, hbody, hreduces⟩ := hmap.reducible name h
    exact .funcApp hmem hpres hposts hbody hreduces
  | case5 _ _ base _ _ _ ih => exact .unfolding (ih h)
  | case6 => cases h

/-- A function and what has become of it. -/
structure Tracks (map : PureFunctionMap) (function function' : Function) : Prop where
  name : function'.name = function.name
  pres : function'.pres = function.pres
  posts : function'.posts = function.posts
  body : (function.body = none ∧ function'.body = none) ∨
    ∃ body body', function.body = some body ∧ function'.body = some body' ∧
      ∀ map', ConstantMap map' → MapLe map map' →
        SameShape (inlineExpr map' body') (inlineExpr map' body)

theorem Tracks.inlineInto {map' : PureFunctionMap} (hmap' : ConstantMap map') (hle : MapLe map map')
    (h : Tracks map function function') :
    Tracks map' function (inlineInto map' function') := by
  refine ⟨h.name, h.pres, h.posts, ?_⟩
  rcases h.body with ⟨hbody, hbody'⟩ | ⟨body, body', hbody, hbody', hshape⟩
  · left
    refine ⟨hbody, ?_⟩
    rw [Optimizations.inlineInto, hbody']
    rfl
  · right
    refine ⟨body, inlineExpr map' body', hbody, ?_, ?_⟩
    · rw [Optimizations.inlineInto, hbody']
      rfl
    · intro map'' hmap'' hle'
      have hfirst := inlineExpr_inlineExpr hmap' hmap'' hle' body'
      have hsecond := hshape map'' hmap'' fun name hname => hle' name (hle name hname)
      exact hfirst.trans hsecond

/-- The functions that a pass puts into the map. -/
theorem contains_purifyRound (functions : List Function) (map : PureFunctionMap) (name : String) :
    (purifyRound functions map).1.contains name = true ↔
      map.contains name = true ∨
        ∃ function ∈ functions, function.name = name ∧ (tryPurify function).isSome = true := by
  induction functions generalizing map with
  | nil => simp [purifyRound]
  | cons function functions ih =>
    rw [purifyRound]
    cases htry : tryPurify function with
    | none =>
      refine (ih map).trans (or_congr_right ?_)
      simp [htry]
    | some body =>
      refine (ih _).trans ?_
      rw [HashMap.contains_eq_isSome, HashMap.get?_insert, HashMap.contains_eq_isSome]
      by_cases hname : function.name = name
      · simp [hname, htry]
      · simp [hname]

theorem constantMap_purifyRound (functions : List Function) (hmap : ConstantMap map) :
    ConstantMap (purifyRound functions map).1 := by
  induction functions generalizing map with
  | nil => exact hmap
  | cons function functions ih =>
    rw [purifyRound]
    cases htry : tryPurify function with
    | none => exact ih hmap
    | some body =>
      apply ih
      intro name body' hget
      rw [HashMap.get?_insert] at hget
      split at hget
      · cases hget
        exact (tryPurify_eq_some_iff.mp htry).2.1
      · exact hmap name body' hget

theorem purifyRound_map_of_unchanged {functions : List Function}
    (h : ∀ function ∈ functions, tryPurify function = none) :
    (purifyRound functions map).1 = map := by
  induction functions with
  | nil => rfl
  | cons function functions ih =>
    rw [purifyRound, h function List.mem_cons_self]
    exact ih fun other hother => h other (List.mem_cons_of_mem _ hother)

/-- What holds after every pass. -/
structure LoopInv (functions current : List Function) (map : PureFunctionMap) : Prop where
  mapInv : MapInv functions map
  /-- Every function that is left comes from one of the program. -/
  origin : ∀ function' ∈ current, ∃ function ∈ functions, Tracks map function function'
  /-- Every function of the program is left or has been put into the map. -/
  fate : ∀ function ∈ functions,
    (∃ function' ∈ current, Tracks map function function') ∨
      Reducible functions function ∧ map.contains function.name = true

theorem Tracks.refl (map : PureFunctionMap) (function : Function) :
    Tracks map function function := by
  refine ⟨rfl, rfl, rfl, ?_⟩
  cases hbody : function.body with
  | none => exact .inl ⟨rfl, rfl⟩
  | some body => exact .inr ⟨body, body, rfl, rfl, fun _ _ _ => ⟨rfl, fun _ => Iff.rfl⟩⟩

theorem loopInv_initial (functions : List Function) :
    LoopInv functions functions HashMap.empty where
  mapInv := ⟨fun _ _ h => (nomatch h), fun _ h => (nomatch h)⟩
  origin := fun function hmem => ⟨function, hmem, Tracks.refl _ function⟩
  fate := fun function hmem => .inl ⟨function, hmem, Tracks.refl _ function⟩

/-- A function that is put into the map is reducible. -/
theorem reducible_of_tryPurify (hmap : MapInv functions map)
    (htracks : Tracks map function function') (htry : (tryPurify function').isSome = true) :
    Reducible functions function := by
  obtain ⟨body', htry⟩ := Option.isSome_iff_exists.mp htry
  obtain ⟨hbody', hconst, hpres, hposts⟩ := tryPurify_eq_some_iff.mp htry
  rw [htracks.pres] at hpres
  rw [htracks.posts] at hposts
  refine ⟨hpres, hposts, ?_⟩
  rcases htracks.body with ⟨-, hnone⟩ | ⟨body, body'', hbody, hbody'', hshape⟩
  · rw [hnone] at hbody'
    cases hbody'
  · rw [hbody''] at hbody'
    cases hbody'
    refine ⟨body, hbody, reducesToConstant_of_reducesBy hmap ?_⟩
    have hsame := (hshape map hmap.constant fun _ h => h).1
    rw [isConstant_inlineExpr hmap.constant, isConstant_inlineExpr hmap.constant] at hsame
    rw [← hsame]
    exact reducesBy_of_isConstant hconst

/-- One pass. -/
theorem LoopInv.round (h : LoopInv functions current map) :
    LoopInv functions ((purifyRound current map).2.1.map (inlineInto (purifyRound current map).1))
      (purifyRound current map).1 := by
  have hconst := constantMap_purifyRound current h.mapInv.constant
  have hle : MapLe map (purifyRound current map).1 := fun name hname =>
    (contains_purifyRound current map name).mpr (.inl hname)
  rw [purifyRound_nonPure]
  refine ⟨⟨hconst, ?_⟩, ?_, ?_⟩
  · intro name hname
    rcases (contains_purifyRound current map name).mp hname with hname |
      ⟨function', hmem, rfl, htry⟩
    · exact h.mapInv.reducible name hname
    · obtain ⟨function, hfunction, htracks⟩ := h.origin function' hmem
      exact ⟨function, hfunction, htracks.name.symm, reducible_of_tryPurify h.mapInv htracks htry⟩
  · intro function'' hmem
    obtain ⟨function', hfunction', rfl⟩ := List.mem_map.mp hmem
    obtain ⟨function, hfunction, htracks⟩ := h.origin function' (List.mem_of_mem_filter hfunction')
    exact ⟨function, hfunction, htracks.inlineInto hconst hle⟩
  · intro function hfunction
    rcases h.fate function hfunction with ⟨function', hmem, htracks⟩ |
      ⟨hreducible, hname⟩
    · cases htry : (tryPurify function').isSome with
      | true =>
        right
        refine ⟨reducible_of_tryPurify h.mapInv htracks htry, ?_⟩
        exact (contains_purifyRound current map _).mpr (.inr ⟨function', hmem, htracks.name, htry⟩)
      | false =>
        left
        refine ⟨inlineInto _ function', List.mem_map_of_mem ?_, htracks.inlineInto hconst hle⟩
        rw [List.mem_filter]
        exact ⟨hmem, by rw [← Option.not_isSome, htry]; rfl⟩
    · exact .inr ⟨hreducible, hle _ hname⟩

/-- A body that the map reduces to a constant is one. -/
def Stable (current : List Function) (map : PureFunctionMap) : Prop :=
  ∀ function ∈ current, ∀ body, function.body = some body →
    reducesBy map body = true → isConstant body = true

theorem stable_round (hmap : ConstantMap map) : Stable (current.map (inlineInto map)) map := by
  intro function hmem body hbody hreduces
  obtain ⟨function', -, rfl⟩ := List.mem_map.mp hmem
  obtain ⟨body', -, rfl⟩ := Option.map_eq_some_iff.mp hbody
  rw [← isConstant_inlineExpr hmap] at hreduces
  rw [← (inlineExpr_inlineExpr hmap hmap (fun _ h => h) body').1]
  exact hreduces

/-- A function and how it is returned. -/
structure Inlined (map : PureFunctionMap) (function function' : Function) : Prop where
  name : function'.name = function.name
  pres : function'.pres = function.pres
  posts : function'.posts = function.posts
  body : (function.body = none ∧ function'.body = none) ∨
    ∃ body body', function.body = some body ∧ function'.body = some body' ∧
      SameShape body' (inlineExpr map body)

theorem Tracks.inlined (hmap : ConstantMap map) (h : Tracks map function function') :
    Inlined map function (Optimizations.inlineInto map function') := by
  refine ⟨h.name, h.pres, h.posts, ?_⟩
  rcases h.body with ⟨hbody, hbody'⟩ | ⟨body, body', hbody, hbody', hshape⟩
  · left
    refine ⟨hbody, ?_⟩
    rw [Optimizations.inlineInto, hbody']
    rfl
  · right
    refine ⟨body, inlineExpr map body', hbody, ?_, hshape map hmap fun _ h => h⟩
    rw [Optimizations.inlineInto, hbody']
    rfl

/-- What the passes come to. -/
structure LoopResult (functions : List Function) (map : PureFunctionMap)
    (result : List Function) : Prop where
  mapInv : MapInv functions map
  complete : ∀ expr, ReducesToConstant functions expr → reducesBy map expr = true
  origin : ∀ function' ∈ result, ∃ function ∈ functions,
    ¬ Reducible functions function ∧ Inlined map function function'
  fate : ∀ function ∈ functions, Reducible functions function ∨
    ∃ function' ∈ result, Inlined map function function'

section Last

variable {current : List Function} {map : PureFunctionMap}
  (hinv : LoopInv functions current map) (hstable : Stable current map)
  (hnone : ∀ function ∈ current, tryPurify function = none)

include hinv hstable hnone

/-- What is left after the last pass does not reduce. -/
theorem not_reduces_of_last (hmem : function' ∈ current) (htracks : Tracks map function function')
    (hpres : function.pres.all isOnlyPermissions = true) (hposts : function.posts = [])
    {body : Expr} (hbody : function.body = some body) :
    reducesBy map body = false := by
  rw [Bool.eq_false_iff]
  intro hreduces
  rcases htracks.body with ⟨hnobody, -⟩ | ⟨body₀, body', hbody₀, hbody', hshape⟩
  · rw [hnobody] at hbody
    cases hbody
  · rw [hbody₀] at hbody
    cases hbody
    have hsame := (hshape map hinv.mapInv.constant fun _ h => h).1
    rw [isConstant_inlineExpr hinv.mapInv.constant,
      isConstant_inlineExpr hinv.mapInv.constant, hreduces] at hsame
    have hconst := hstable function' hmem body' hbody' hsame
    have htry : tryPurify function' = some body' := by
      rw [tryPurify_eq_some_iff, htracks.pres, htracks.posts]
      exact ⟨hbody', hconst, hpres, hposts⟩
    rw [hnone function' hmem] at htry
    cases htry

theorem reducesBy_of_reducesToConstant (h : ReducesToConstant functions expr) :
    reducesBy map expr = true := by
  induction h with
  | const => rfl
  | unaryOp _ ih => exact ih
  | binOp _ _ ihleft ihright =>
    rw [reducesBy, ihleft, ihright]
    rfl
  | @funcApp function body _ _ _ _ hmem hpres hposts hbody _ ih =>
    rw [reducesBy]
    rcases hinv.fate function hmem with ⟨function', hmem', htracks⟩ | ⟨-, hname⟩
    · rw [not_reduces_of_last hinv hstable hnone hmem' htracks hpres hposts hbody] at ih
      cases ih
    · exact hname
  | unfolding _ ih => exact ih

theorem loopResult_of_last : LoopResult functions map (current.map (inlineInto map)) where
  mapInv := hinv.mapInv
  complete := fun _ h => reducesBy_of_reducesToConstant hinv hstable hnone h
  origin := by
    intro function'' hmem
    obtain ⟨function', hmem', rfl⟩ := List.mem_map.mp hmem
    obtain ⟨function, hfunction, htracks⟩ := hinv.origin function' hmem'
    refine ⟨function, hfunction, ?_, htracks.inlined hinv.mapInv.constant⟩
    rintro ⟨hpres, hposts, body, hbody, hreduces⟩
    have hyes := reducesBy_of_reducesToConstant hinv hstable hnone hreduces
    rw [not_reduces_of_last hinv hstable hnone hmem' htracks hpres hposts hbody] at hyes
    cases hyes
  fate := by
    intro function hfunction
    rcases hinv.fate function hfunction with ⟨function', hmem', htracks⟩ |
      ⟨hreducible, -⟩
    · exact .inr ⟨_, List.mem_map_of_mem hmem', htracks.inlined hinv.mapInv.constant⟩
    · exact .inl hreducible

end Last

/-- The passes from a state that an earlier pass has left. -/
theorem purifyLoop_result (hinv : LoopInv functions current map) (hstable : Stable current map) :
    LoopResult functions (purifyLoop current map).1 (purifyLoop current map).2 := by
  fun_induction purifyLoop current map with
  | case1 current map round current' hchanged ih =>
    exact ih hinv.round (stable_round hinv.round.mapInv.constant)
  | case2 current map round current' hchanged =>
    have hnone : ∀ function ∈ current, tryPurify function = none := by
      intro function hmem
      rw [← Option.not_isSome_iff_eq_none]
      intro hsome
      apply hchanged
      rw [purifyRound_changed, List.any_eq_true]
      exact ⟨function, hmem, hsome⟩
    have hmap : round.1 = map := purifyRound_map_of_unchanged hnone
    have hcurrent : round.2.1 = current := by
      rw [purifyRound_nonPure, List.filter_eq_self]
      intro function hmem
      rw [hnone function hmem]
      rfl
    have hresult := loopResult_of_last hinv hstable hnone
    simp only [current', hmap, hcurrent]
    exact hresult

end Purified

section Dangling

variable {functions : List Function}

variable {map : PureFunctionMap}

/-- The functions that the passes remove.  The passes get going when the body of
some function is a constant as it stands. -/
structure Removed (functions : List Function) (name : String) : Prop where
  started : ∃ function ∈ functions, (tryPurify function).isSome = true
  mem : ∃ function ∈ functions, function.name = name
  reducible : ∀ function ∈ functions, function.name = name → Reducible functions function

/-- A function is applied in a trigger that is not dropped together with the
arguments of a call or with the unfolding around a constant. -/
inductive TriggerCalls (functions : List Function) (name : String) : Expr → Prop where
  | trigger {expr part : Expr} {trigger : List Expr}
      (htrigger : trigger ∈ expr.triggers) (hpart : part ∈ trigger)
      (hname : name ∈ callNames part) : TriggerCalls functions name expr
  | child {expr child : Expr} (hexpr : ¬ ReducesToConstant functions expr)
      (hchild : child ∈ expr.children) (h : TriggerCalls functions name child) :
      TriggerCalls functions name expr

/-- No application of a removed function remains. -/
def NoDanglingCall (functions : List Function) (result : List CfgMethod × List Function) : Prop :=
  ∀ name, (∃ function ∈ functions, function.name = name) →
    (∀ function ∈ result.2, function.name ≠ name) →
      (∀ function ∈ result.2, ∀ expr ∈ function.pres ++ function.posts ++ function.body.toList,
          name ∉ callNames expr) ∧
      ∀ method ∈ result.1, ∀ expr ∈ method.stmtExprs ++ method.guards, name ∉ callNames expr

/-- The removed functions are applied neither in the conditions of the other
functions, nor in triggers, nor in the guards of successors. -/
def CallsAreRewritten (methods : List CfgMethod) (functions : List Function) : Prop :=
  ∀ name, Removed functions name →
    (∀ function ∈ functions, ¬ Reducible functions function →
      (∀ expr ∈ function.pres ++ function.posts, name ∉ callNames expr) ∧
        ∀ expr ∈ function.body.toList, ¬ TriggerCalls functions name expr) ∧
    ∀ method ∈ methods,
      (∀ expr ∈ method.stmtExprs, ¬ TriggerCalls functions name expr) ∧
        ∀ expr ∈ method.guards, name ∉ callNames expr

theorem triggers_of_reduces (h : ReducesToConstant functions expr) : expr.triggers = [] := by
  cases h <;> rfl

/-- What remains of the calls of a function in the map. -/
theorem mem_callNames_inlineExpr (h : LoopResult functions map result)
    (hname : map.contains name = true) (expr : Expr) :
    name ∈ callNames (inlineExpr map expr) ↔ TriggerCalls functions name expr := by
  induction expr using Expr.children_induction with
  | h expr ih _ =>
  rcases inlineExpr_cases h.mapInv.constant expr with ⟨hreduces, hconst⟩ |
    ⟨hreduces, -, hcall, heq⟩
  · have hexpr := reducesToConstant_of_reducesBy h.mapInv hreduces
    constructor
    · intro hmem
      exact absurd hmem (callNames_of_isConstant hconst)
    · intro hcalls
      cases hcalls with
      | trigger htrigger =>
        rw [triggers_of_reduces hexpr] at htrigger
        cases htrigger
      | child hnot => exact absurd hexpr hnot
  · have hexpr : ¬ ReducesToConstant functions expr := by
      intro hexpr
      rw [h.complete expr hexpr] at hreduces
      cases hreduces
    rw [heq, mem_callNames_rebuild]
    constructor
    · rintro (hcallName | ⟨child, hchild, hmem⟩ | ⟨trigger, htrigger, part, hpart, hmem⟩)
      · rw [HashMap.contains_eq_isSome, hcall name hcallName] at hname
        cases hname
      · exact .child hexpr hchild ((ih child hchild).mp hmem)
      · exact .trigger htrigger hpart hmem
    · intro hcalls
      cases hcalls with
      | trigger htrigger hpart hmem => exact .inr (.inr ⟨_, htrigger, _, hpart, hmem⟩)
      | child _ hchild hmem => exact .inr (.inl ⟨_, hchild, (ih _ hchild).mpr hmem⟩)

/-- The removed functions, by what the passes return. -/
theorem removed_iff (hstarted : ∃ function ∈ functions, (tryPurify function).isSome = true)
    (h : LoopResult functions map result) (name : String) :
    Removed functions name ↔ (∃ function ∈ functions, function.name = name) ∧
      ∀ function ∈ result, function.name ≠ name := by
  constructor
  · intro hremoved
    refine ⟨hremoved.mem, fun function' hmem hname => ?_⟩
    obtain ⟨function, hfunction, hnot, hinlined⟩ := h.origin function' hmem
    exact hnot (hremoved.reducible function hfunction (hinlined.name ▸ hname))
  · rintro ⟨hmem, hnot⟩
    refine ⟨hstarted, hmem, fun function hfunction hname => ?_⟩
    rcases h.fate function hfunction with hreducible | ⟨function', hmem', hinlined⟩
    · exact hreducible
    · exact absurd (hinlined.name.trans hname) (hnot function' hmem')

theorem contains_of_removed (h : LoopResult functions map result)
    (hremoved : Removed functions name) : map.contains name = true := by
  obtain ⟨function, hmem, rfl⟩ := hremoved.mem
  obtain ⟨hpres, hposts, body, hbody, hreduces⟩ := hremoved.reducible function hmem rfl
  have hcall : ReducesToConstant functions
      (.funcApp function.name [] [] function.returnType Position.default) :=
    .funcApp hmem hpres hposts hbody hreduces
  exact h.complete _ hcall

/-- What remains in the functions that are returned. -/
theorem functions_noDanglingCall_iff (h : LoopResult functions map result)
    (hname : map.contains name = true) :
    (∀ function ∈ result,
      ∀ expr ∈ function.pres ++ function.posts ++ function.body.toList, name ∉ callNames expr) ↔
    ∀ function ∈ functions, ¬ Reducible functions function →
      (∀ expr ∈ function.pres ++ function.posts, name ∉ callNames expr) ∧
        ∀ expr ∈ function.body.toList, ¬ TriggerCalls functions name expr := by
  have hbodies : ∀ function function', Inlined map function function' →
      ((∀ expr ∈ function'.body.toList, name ∉ callNames expr) ↔
        ∀ expr ∈ function.body.toList, ¬ TriggerCalls functions name expr) := by
    intro function function' hinlined
    rcases hinlined.body with ⟨hbody, hbody'⟩ | ⟨body, body', hbody, hbody', hshape⟩
    · rw [hbody, hbody']
      simp
    · rw [hbody, hbody']
      simp only [Option.toList_some, List.mem_singleton, forall_eq]
      rw [← mem_callNames_inlineExpr h hname body, hshape.2 name]
  constructor
  · intro hall function hfunction hnot
    rcases h.fate function hfunction with hreducible | ⟨function', hmem', hinlined⟩
    · exact absurd hreducible hnot
    · have hall' := hall function' hmem'
      rw [List.forall_mem_append, hinlined.pres, hinlined.posts] at hall'
      exact ⟨hall'.1, (hbodies function function' hinlined).mp hall'.2⟩
  · intro hall function' hmem'
    obtain ⟨function, hfunction, hnot, hinlined⟩ := h.origin function' hmem'
    rw [List.forall_mem_append, hinlined.pres, hinlined.posts]
    obtain ⟨hconds, hbody⟩ := hall function hfunction hnot
    exact ⟨hconds, (hbodies function function' hinlined).mpr hbody⟩

theorem methods_noDanglingCall_iff (h : LoopResult functions map result)
    (hname : map.contains name = true) (methods : List CfgMethod) :
    (∀ method ∈ inlineIntoMethods methods map,
      ∀ expr ∈ method.stmtExprs ++ method.guards, name ∉ callNames expr) ↔
    ∀ method ∈ methods,
      (∀ expr ∈ method.stmtExprs, ¬ TriggerCalls functions name expr) ∧
        ∀ expr ∈ method.guards, name ∉ callNames expr := by
  unfold inlineIntoMethods
  rw [List.forall_mem_map]
  refine forall₂_congr fun method _ => ?_
  rw [List.forall_mem_append, CfgMethod.stmtExprs_mapStmts_mapExprs,
    CfgMethod.guards_mapStmts, List.forall_mem_map]
  refine and_congr_left' (forall₂_congr fun expr _ => ?_)
  rw [mem_callNames_inlineExpr h hname]

/-- Nothing is removed when no body is a constant. -/
theorem purifyLoop_of_not_started
    (h : ¬ ∃ function ∈ functions, (tryPurify function).isSome = true) :
    (purifyLoop functions HashMap.empty).2 = functions.map (inlineInto HashMap.empty) := by
  have hnone : ∀ function ∈ functions, tryPurify function = none := by
    intro function hmem
    rw [← Option.not_isSome_iff_eq_none]
    exact fun hsome => h ⟨function, hmem, hsome⟩
  have hchanged : (purifyRound functions HashMap.empty).2.2 = false := by
    rw [purifyRound_changed, List.any_eq_false]
    intro function hmem
    rw [hnone function hmem]
    simp
  rw [purifyLoop]
  simp only [hchanged, purifyRound_map_of_unchanged hnone, purifyRound_nonPure]
  rw [List.filter_eq_self.mpr]
  · rfl
  · intro function hmem
    rw [hnone function hmem]
    rfl

theorem loopResult_of_started (h : ∃ function ∈ functions, (tryPurify function).isSome = true) :
    LoopResult functions (purifyLoop functions HashMap.empty).1
      (purifyLoop functions HashMap.empty).2 := by
  have hchanged : (purifyRound functions HashMap.empty).2.2 = true := by
    rw [purifyRound_changed, List.any_eq_true]
    exact h
  have hinv := (loopInv_initial functions).round
  rw [purifyLoop]
  simp only [hchanged, dif_pos]
  exact purifyLoop_result hinv (stable_round hinv.mapInv.constant)

/-- The pass leaves no dangling call exactly when the removed functions are
applied only where the pass looks. -/
theorem inlineConstantFunctions_noDanglingCall_iff (methods : List CfgMethod)
    (functions : List Function) :
    NoDanglingCall functions (inlineConstantFunctions methods functions) ↔
      CallsAreRewritten methods functions := by
  by_cases hstarted : ∃ function ∈ functions, (tryPurify function).isSome = true
  · have hresult := loopResult_of_started hstarted
    refine forall_congr' fun name => ?_
    constructor
    · intro hno hremoved
      have hname := contains_of_removed hresult hremoved
      obtain ⟨hmem, hnot⟩ := (removed_iff hstarted hresult name).mp hremoved
      obtain ⟨hfunctions, hmethods⟩ := hno hmem hnot
      exact ⟨(functions_noDanglingCall_iff hresult hname).mp hfunctions,
        (methods_noDanglingCall_iff hresult hname methods).mp hmethods⟩
    · intro hall hmem hnot
      have hremoved := (removed_iff hstarted hresult name).mpr ⟨hmem, hnot⟩
      have hname := contains_of_removed hresult hremoved
      obtain ⟨hfunctions, hmethods⟩ := hall hremoved
      exact ⟨(functions_noDanglingCall_iff hresult hname).mpr hfunctions,
        (methods_noDanglingCall_iff hresult hname methods).mpr hmethods⟩
  · constructor
    · intro _ name hremoved
      exact absurd hremoved.started hstarted
    · intro _ name hmem hnot
      obtain ⟨function, hfunction, rfl⟩ := hmem
      refine absurd rfl (hnot (inlineInto HashMap.empty function) ?_)
      change _ ∈ (purifyLoop functions HashMap.empty).2
      rw [purifyLoop_of_not_started hstarted]
      exact List.mem_map_of_mem hfunction

end Dangling

namespace Witness

/-- `function c(): Bool { true }` -/
def constantFunction : Function where
  name := "c"
  formalArgs := []
  returnType := .bool
  pres := []
  posts := []
  body := some (.const (.bool true) Position.default)

/-- `function f(): Bool ensures c()` -/
def callerFunction : Function where
  name := "f"
  formalArgs := []
  returnType := .bool
  pres := []
  posts := [.funcApp "c" [] [] .bool Position.default]
  body := none

theorem inlineConstantFunctions_postcondition :
    inlineConstantFunctions [] [constantFunction, callerFunction] = ([], [callerFunction]) := by
  unfold inlineConstantFunctions
  rw [purifyLoop]
  change (([], (purifyLoop [callerFunction] _).2) : List CfgMethod × List Function) = _
  rw [purifyLoop]
  rfl

/-- The call in the postcondition stays, the function does not. -/
theorem inlineConstantFunctions_dangling_postcondition :
    ¬ NoDanglingCall [constantFunction, callerFunction]
      (inlineConstantFunctions [] [constantFunction, callerFunction]) := by
  rw [inlineConstantFunctions_postcondition]
  intro h
  have hcalls := (h "c" ⟨constantFunction, by simp, rfl⟩ (by decide)).1
  exact hcalls callerFunction (by simp) (.funcApp "c" [] [] .bool Position.default)
    (by simp [callerFunction]) (by decide)

end Witness

end Prusti.Optimizations

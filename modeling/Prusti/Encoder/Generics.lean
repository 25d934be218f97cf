/-
Type parameters, resolved under a stack of substitutions.
-/
import Prusti.Lib.HashMap
import Prusti.Lib.Lists
import Prusti.Lib.Terms

namespace Prusti.Encoder.Generics

open Prusti.Lib

structure ParamTy where
  index : Nat
  name : String
deriving Repr, DecidableEq

variable {Kind : Type} [DecidableEq Kind]

/-- A type parameter, or a kind of type with the types in it. -/
abbrev Ty (Kind : Type) := Term Kind ParamTy

abbrev TyMap (Kind : Type) [DecidableEq Kind] := HashMap (Ty Kind) (Ty Kind)

/-- A substitution of type parameters. -/
structure Frame (Kind : Type) [DecidableEq Kind] where
  tymap : TyMap Kind
  params : ∀ binding ∈ tymap.entries, ∃ param, binding.1 = .var param

/-- The substitutions that are in force, the most recent one last. -/
abbrev TyparamRepl (Kind : Type) [DecidableEq Kind] := List (Frame Kind)

def pushTempTymap (stack : TyparamRepl Kind) (frame : Frame Kind) : TyparamRepl Kind :=
  stack ++ [frame]

def insertBinding (order : IterOrder) (map : TyMap Kind) (binding : Ty Kind × Ty Kind) :
    TyMap Kind :=
  let map := map.insert binding.1 binding.2
  let additionalSubsts := (order.iter 0 map.entries).filter fun other => other.2 == binding.1
  -- what is inserted is what was found
  additionalSubsts.foldl (fun map other => map.insert other.1 other.2) map

def insertBindings (order : IterOrder) (map : TyMap Kind) : List (Ty Kind × Ty Kind) → TyMap Kind
  | [] => map
  | binding :: rest =>
    insertBindings (order.call 1) (insertBinding (order.call 0) map binding) rest

def mergeFrames (order : IterOrder) (map : TyMap Kind) : List (Frame Kind) → TyMap Kind
  | [] => map
  | frame :: rest =>
    mergeFrames (order.call 1)
      (insertBindings (order.call 0) map (order.iter 0 frame.tymap.entries)) rest

/-- Merge the stack of type maps into a single map. -/
def currentTymap (order : IterOrder) (stack : TyparamRepl Kind) : TyMap Kind :=
  mergeFrames order HashMap.empty stack.reverse

/-- Fold the types in a type. -/
def superFoldWith (fold : Ty Kind → Option (Ty Kind)) : Ty Kind → Option (Ty Kind)
  | .var param => some (.var param)
  | .node kind args => (args.mapM fold).map (.node kind)

def foldTy (tymap : TyMap Kind) : Nat → Ty Kind → Option (Ty Kind)
  | 0, _ => none
  | fuel + 1, ty => superFoldWith (foldTy tymap fuel) ((tymap.get? ty).getD ty)

/-- Convert a potential type parameter to a concrete type, if the recursion ends within the
fuel. -/
def resolveTyparam (order : IterOrder) (stack : TyparamRepl Kind) (fuel : Nat) (ty : Ty Kind) :
    Option (Ty Kind) :=
  foldTy (currentTymap order stack) fuel ty

/-- The type is resolved to another one. -/
def ResolvesTo (order : IterOrder) (stack : TyparamRepl Kind) (ty result : Ty Kind) : Prop :=
  ∃ fuel, resolveTyparam order stack fuel ty = some result

def Frame.apply (frame : Frame Kind) (ty : Ty Kind) : Ty Kind :=
  ty.subst fun param => (frame.tymap.get? (.var param)).getD (.var param)

/-- The composition of the substitutions, of which the most recent one comes first. -/
def composition (stack : TyparamRepl Kind) (ty : Ty Kind) : Ty Kind := stack.foldr Frame.apply ty

/-- What the oldest substitution with a type replaces it by. -/
def oldestBinding? (stack : TyparamRepl Kind) (ty : Ty Kind) : Option (Ty Kind) :=
  stack.findSome? fun frame => frame.tymap.get? ty

section Merge

theorem get?_insertBinding (order : IterOrder) (map : TyMap Kind) (binding : Ty Kind × Ty Kind)
    (ty : Ty Kind) :
    (insertBinding order map binding).get? ty =
      if binding.1 == ty then some binding.2 else map.get? ty := by
  rw [← HashMap.get?_insert]
  apply HashMap.get?_foldl_insert_of_subset
  intro entry hentry
  exact (order.mem_iter 0 _ entry).mp (List.mem_of_mem_filter hentry)

theorem get?_insertBindings (order : IterOrder) (map : TyMap Kind)
    (bindings : List (Ty Kind × Ty Kind)) (ty : Ty Kind) :
    (insertBindings order map bindings).get? ty =
      (lookup bindings.reverse ty).or (map.get? ty) := by
  induction bindings generalizing order map with
  | nil => rfl
  | cons binding bindings ih =>
    rw [insertBindings, ih, get?_insertBinding, List.reverse_cons, lookup_append, lookup_cons,
      Option.or_assoc]
    cases binding.1 == ty <;> rfl

theorem get?_mergeFrames (order : IterOrder) (map : TyMap Kind) (frames : List (Frame Kind))
    (ty : Ty Kind) :
    (mergeFrames order map frames).get? ty =
      (oldestBinding? frames.reverse ty).or (map.get? ty) := by
  induction frames generalizing order map with
  | nil => rfl
  | cons frame frames ih =>
    have hperm := (List.reverse_perm _).trans (order.iter_perm 0 frame.tymap.entries)
    have hframe := lookup_perm frame.tymap.nodup hperm ty
    rw [mergeFrames, ih, get?_insertBindings, hframe, ← Option.or_assoc, oldestBinding?,
      oldestBinding?, List.reverse_cons, List.findSome?_append, List.findSome?_singleton]
    rfl

/-- The single map binds a type as the oldest substitution does, in whatever order the maps
are iterated over. -/
theorem get?_currentTymap (order : IterOrder) (stack : TyparamRepl Kind) (ty : Ty Kind) :
    (currentTymap order stack).get? ty = oldestBinding? stack ty := by
  rw [currentTymap, get?_mergeFrames, List.reverse_reverse, HashMap.get?_empty, Option.or_none]

end Merge

section Composition

/-- Only type parameters are replaced. -/
theorem Frame.get?_node (frame : Frame Kind) (kind : Kind) (args : List (Ty Kind)) :
    frame.tymap.get? (.node kind args) = none := by
  rw [HashMap.get?, lookup_eq_none_iff]
  intro binding hbinding
  obtain ⟨param, hparam⟩ := frame.params binding hbinding
  rw [hparam]
  rfl

theorem oldestBinding?_node (stack : TyparamRepl Kind) (kind : Kind) (args : List (Ty Kind)) :
    oldestBinding? stack (.node kind args) = none := by
  rw [oldestBinding?, List.findSome?_eq_none_iff]
  intro frame _
  exact frame.get?_node kind args

theorem composition_node (stack : TyparamRepl Kind) (kind : Kind) (args : List (Ty Kind)) :
    composition stack (.node kind args) = .node kind (args.map (composition stack)) := by
  induction stack with
  | nil => exact congrArg (Term.node kind) (List.map_id args).symm
  | cons frame stack ih =>
    change Frame.apply frame (composition stack (.node kind args)) = _
    rw [ih, Frame.apply, Term.subst_node, List.map_map]
    rfl

theorem composition_of_unbound {stack : TyparamRepl Kind} {param : ParamTy}
    (h : oldestBinding? stack (.var param) = none) :
    composition stack (.var param) = .var param := by
  rw [oldestBinding?, List.findSome?_eq_none_iff] at h
  induction stack with
  | nil => rfl
  | cons frame stack ih =>
    rw [List.forall_mem_cons] at h
    change Frame.apply frame (composition stack (.var param)) = _
    rw [ih h.2, Frame.apply, Term.subst_var, h.1]
    rfl

/-- What the composition makes of an argument is smaller than what it makes of the node. -/
theorem size_composition_lt (stack : TyparamRepl Kind) (kind : Kind) {args : List (Ty Kind)}
    {arg : Ty Kind} (h : arg ∈ args) :
    (composition stack arg).size < (composition stack (.node kind args)).size := by
  rw [composition_node]
  exact Term.size_lt_of_mem kind (List.mem_map_of_mem h)

end Composition

section Resolution

variable {order : IterOrder} {stack : TyparamRepl Kind}

theorem resolveTyparam_succ (order : IterOrder) (stack : TyparamRepl Kind) (fuel : Nat)
    (ty : Ty Kind) :
    resolveTyparam order stack (fuel + 1) ty =
      superFoldWith (resolveTyparam order stack fuel) ((oldestBinding? stack ty).getD ty) := by
  rw [← get?_currentTymap order]
  rfl

omit [DecidableEq Kind] in
theorem superFoldWith_mono {fold fold' : Ty Kind → Option (Ty Kind)}
    (hfold : ∀ ty result, fold ty = some result → fold' ty = some result) {ty result : Ty Kind}
    (h : superFoldWith fold ty = some result) : superFoldWith fold' ty = some result := by
  cases ty with
  | var param => exact h
  | node kind args =>
    obtain ⟨results, hresults, rfl⟩ := Option.map_eq_some_iff.mp h
    rw [superFoldWith, Option.map_eq_some_iff]
    exact ⟨results, mapM_eq_some_iff.mpr ((mapM_eq_some_iff.mp hresults).imp hfold), rfl⟩

/-- More fuel does not change the result. -/
theorem resolveTyparam_mono {fuel fuel' : Nat} (hfuel : fuel ≤ fuel') {ty result : Ty Kind}
    (h : resolveTyparam order stack fuel ty = some result) :
    resolveTyparam order stack fuel' ty = some result := by
  induction fuel generalizing fuel' ty result with
  | zero => nomatch h
  | succ fuel ih =>
    obtain ⟨fuel', rfl⟩ := Nat.exists_eq_add_of_lt hfuel
    rw [resolveTyparam_succ] at h ⊢
    exact superFoldWith_mono (fun ty result h => ih (by omega) h) h

/-- A type is resolved to one type at most. -/
theorem ResolvesTo.unique {ty result result' : Ty Kind} (h : ResolvesTo order stack ty result)
    (h' : ResolvesTo order stack ty result') : result = result' := by
  obtain ⟨fuel, hfuel⟩ := h
  obtain ⟨fuel', hfuel'⟩ := h'
  have hmax := resolveTyparam_mono (Nat.le_max_left fuel fuel') hfuel
  rw [resolveTyparam_mono (Nat.le_max_right fuel fuel') hfuel'] at hmax
  exact (Option.some.inj hmax).symm

/-- A type parameter whose oldest binding is what the composition makes of it, or is made the
same by the composition. -/
def Settled (stack : TyparamRepl Kind) (param : ParamTy) : Prop :=
  match oldestBinding? stack (.var param) with
  | none => True
  | some (.var param') => composition stack (.var param) = .var param'
  | some (.node kind args) =>
    composition stack (.var param) = composition stack (.node kind args)

/-- The type parameters that are met when a type is resolved. -/
inductive Reaches (stack : TyparamRepl Kind) (ty : Ty Kind) : ParamTy → Prop where
  | occurs {param : ParamTy} (h : Term.Occurs param ty) : Reaches stack ty param
  | bound {param param' : ParamTy} {kind : Kind} {args : List (Ty Kind)}
      (hreaches : Reaches stack ty param)
      (hbinding : oldestBinding? stack (.var param) = some (.node kind args))
      (hoccurs : Term.Occurs param' (.node kind args)) : Reaches stack ty param'

theorem Reaches.of_mem {kind : Kind} {args : List (Ty Kind)} {arg : Ty Kind}
    (hmem : arg ∈ args) {param : ParamTy} (h : Reaches stack arg param) :
    Reaches stack (.node kind args) param := by
  induction h with
  | occurs h => exact .occurs (.node kind hmem h)
  | bound _ hbinding hoccurs ih => exact .bound ih hbinding hoccurs

theorem Reaches.of_binding {kind : Kind} {args : List (Ty Kind)} {param : ParamTy}
    (hbinding : oldestBinding? stack (.var param) = some (.node kind args)) {param' : ParamTy}
    (h : Reaches stack (.node kind args) param') : Reaches stack (.var param) param' := by
  induction h with
  | occurs h => exact .bound (.occurs .var) hbinding h
  | bound _ hbinding hoccurs ih => exact .bound ih hbinding hoccurs

/-- A type is resolved to its composition if the parameters that it reaches are settled: by
induction on a bound for the size of the composition, which bounds the recursion. -/
theorem resolveTyparam_of_settled (order : IterOrder) (fuel : Nat) (ty : Ty Kind)
    (hsettled : ∀ param, Reaches stack ty param → Settled stack param)
    (hfuel : (composition stack ty).size ≤ fuel) :
    resolveTyparam order stack fuel ty = some (composition stack ty) := by
  induction fuel generalizing ty with
  | zero => exact absurd hfuel (Nat.not_le_of_gt (Term.size_pos _))
  | succ fuel ih =>
    have hnode : ∀ kind args,
        (∀ param, Reaches stack (.node kind args) param → Settled stack param) →
        (composition stack (.node kind args)).size ≤ fuel + 1 →
        superFoldWith (resolveTyparam order stack fuel) (.node kind args) =
          some (composition stack (.node kind args)) := by
      intro kind args hsettled hsize
      have hargs : ∀ arg ∈ args,
          resolveTyparam order stack fuel arg = some (composition stack arg) := by
        intro arg harg
        have hlt := size_composition_lt stack kind harg
        exact ih arg (fun param hparam => hsettled param (hparam.of_mem harg)) (by omega)
      rw [superFoldWith, mapM_eq_map hargs, composition_node]
      rfl
    rw [resolveTyparam_succ]
    cases ty with
    | node kind args =>
      rw [oldestBinding?_node]
      exact hnode kind args hsettled hfuel
    | var param =>
      have hparam := hsettled param (.occurs .var)
      rw [Settled] at hparam
      cases hbinding : oldestBinding? stack (.var param) with
      | none =>
        rw [composition_of_unbound hbinding]
        rfl
      | some subst =>
        rw [hbinding] at hparam
        cases subst with
        | var param' => exact congrArg some hparam.symm
        | node kind args =>
          rw [hparam] at hfuel ⊢
          exact hnode kind args
            (fun param hparam => hsettled param (hparam.of_binding hbinding)) hfuel

theorem settled_of_resolvesTo (h : ∀ ty, ResolvesTo order stack ty (composition stack ty))
    (param : ParamTy) : Settled stack param := by
  obtain ⟨fuel, hfuel⟩ := h (.var param)
  cases fuel with
  | zero => nomatch hfuel
  | succ fuel =>
    rw [resolveTyparam_succ] at hfuel
    rw [Settled]
    cases hbinding : oldestBinding? stack (.var param) with
    | none => trivial
    | some subst =>
      rw [hbinding] at hfuel
      cases subst with
      | var param' => exact (Option.some.inj hfuel).symm
      | node kind args =>
        obtain ⟨results, hresults, heq⟩ := Option.map_eq_some_iff.mp hfuel
        have hargs : List.Forall₂ (fun arg result => composition stack arg = result) args
            results :=
          (mapM_eq_some_iff.mp hresults).imp fun arg result hresult =>
            (h arg).unique ⟨fuel, hresult⟩
        rw [← List.forall₂_map_left_iff, List.forall₂_eq_eq_eq] at hargs
        exact heq.symm.trans ((congrArg _ hargs.symm).trans (composition_node stack kind args).symm)

/-- Resolution is the composition of the substitutions just when every type parameter is
settled. -/
theorem resolvesTo_composition_iff (order : IterOrder) (stack : TyparamRepl Kind) :
    (∀ ty, ResolvesTo order stack ty (composition stack ty)) ↔ ∀ param, Settled stack param := by
  constructor
  · exact settled_of_resolvesTo
  · intro hsettled ty
    exact ⟨_, resolveTyparam_of_settled order _ ty (fun param _ => hsettled param) (Nat.le_refl _)⟩

end Resolution

namespace Witness

/-- A substitution of a single type parameter. -/
def single (param : ParamTy) (subst : Ty String) : Frame String where
  tymap := HashMap.empty.insert (.var param) subst
  params := by
    intro binding hbinding
    rw [List.mem_singleton.mp hbinding]
    exact ⟨param, rfl⟩

def paramT : ParamTy := ⟨0, "T"⟩

def paramU : ParamTy := ⟨0, "U"⟩

/-- `T` is replaced by `U`, and `U` by `i32`. -/
def chain : TyparamRepl String :=
  pushTempTymap (pushTempTymap [] (single paramU (.node "i32" []))) (single paramT (.var paramU))

theorem chain_not_resolvesTo :
    ¬ ResolvesTo IterOrder.identity chain (.var paramT) (composition chain (.var paramT)) := by
  intro h
  have hresolved : ResolvesTo IterOrder.identity chain (.var paramT) (.var paramU) := ⟨1, rfl⟩
  exact absurd (h.unique hresolved) (by decide)

end Witness

end Prusti.Encoder.Generics

/-
The snapshots of types under a stack of substitutions: references and boxes are removed
before type parameters are resolved.
-/
import Prusti.Encoder.SnapshotEncoder

namespace Prusti.SnapshotEncoder

open Prusti.Vir Prusti.Lib Relation
open Prusti.Encoder.Generics
open Prusti.Snapshots (SnapshotVariant)

section Wrappers

variable {ty : Ty} {kind : Kind} {args args' : List Ty} {repl : TyparamRepl Kind}

theorem strip_of_pointee {target : Ty} (h : pointee? ty = some target) :
    stripRefsAndBoxes ty = stripRefsAndBoxes target := by
  unfold pointee? at h
  split at h
  · cases h
    rw [stripRefsAndBoxes]
  · cases h
    rw [stripRefsAndBoxes]
  · cases h

theorem strip_of_noPointee (h : pointee? ty = none) : stripRefsAndBoxes ty = ty := by
  unfold pointee? at h
  split at h
  · cases h
  · cases h
  · next href hbox => rw [stripRefsAndBoxes] <;> assumption

theorem pointee?_strip (ty : Ty) : pointee? (stripRefsAndBoxes ty) = none := by
  induction ty using stripRefsAndBoxes.induct with
  | case1 _ ty _ ih => exact ih
  | case2 ty _ ih => exact ih
  | case3 ty href hbox =>
    have hnone : pointee? ty = none := by
      unfold pointee?
      split
      · next mutable ty rest => exact absurd rfl (href mutable ty rest)
      · next ty rest => exact absurd rfl (hbox ty rest)
      · rfl
    rw [strip_of_noPointee hnone, hnone]

/-- Whether a type is a reference or a box depends on its kind only. -/
theorem pointee?_node (f : Ty → Ty) :
    pointee? (.node kind (args.map f)) = (pointee? (.node kind args)).map f := by
  cases args with
  | nil => cases kind <;> rfl
  | cons first rest => cases kind <;> rfl

theorem pointee?_eq_none_iff (h : args.length = args'.length) :
    pointee? (.node kind args) = none ↔ pointee? (.node kind args') = none := by
  cases args with
  | nil =>
    rw [List.length_nil, eq_comm, List.length_eq_zero_iff] at h
    rw [h]
  | cons first rest =>
    cases args' with
    | nil => cases h
    | cons first' rest' => cases kind <;> simp [pointee?]

theorem pointee?_composition :
    pointee? (composition repl (.node kind args)) =
      (pointee? (.node kind args)).map (composition repl) := by
  rw [composition_node, pointee?_node]

/-- References and boxes around a type stay when type parameters are replaced. -/
theorem strip_composition (repl : TyparamRepl Kind) (ty : Ty) :
    stripRefsAndBoxes (composition repl ty) =
      stripRefsAndBoxes (composition repl (stripRefsAndBoxes ty)) := by
  induction ty using stripRefsAndBoxes.induct with
  | case1 mutable ty rest ih =>
    have htarget : pointee? (composition repl (.node (.ref mutable) (ty :: rest))) =
        some (composition repl ty) := by
      rw [pointee?_composition]
      rfl
    rw [strip_of_pointee htarget, ih]
    rfl
  | case2 ty rest ih =>
    have htarget : pointee? (composition repl (.node .box (ty :: rest))) =
        some (composition repl ty) := by
      rw [pointee?_composition]
      rfl
    rw [strip_of_pointee htarget, ih]
    rfl
  | case3 ty href hbox =>
    have hstrip : stripRefsAndBoxes ty = ty := by
      rw [stripRefsAndBoxes] <;> assumption
    rw [hstrip]

end Wrappers

section Resolved

variable {repl : TyparamRepl Kind} {order : IterOrder} {fuel : Nat}

/-- No type parameter is replaced by a reference or a box. -/
def NoPointerBound (repl : TyparamRepl Kind) : Prop :=
  ∀ param binding, oldestBinding? repl (.var param) = some binding → pointee? binding = none

/-- What is resolved is no reference and no box. -/
theorem pointee?_resolveTyparam (hbound : NoPointerBound repl) {ty result : Ty}
    (hty : pointee? ty = none) (h : resolveTyparam order repl fuel ty = some result) :
    pointee? result = none := by
  cases fuel with
  | zero => cases h
  | succ fuel =>
    have hnode : ∀ kind args, pointee? (.node kind args) = none →
        superFoldWith (resolveTyparam order repl fuel) (.node kind args) = some result →
        pointee? result = none := by
      intro kind args hnone hfold
      obtain ⟨results, hresults, rfl⟩ := Option.map_eq_some_iff.mp hfold
      exact (pointee?_eq_none_iff (mapM_eq_some_iff.mp hresults).length_eq).mp hnone
    rw [resolveTyparam_succ] at h
    cases hbinding : oldestBinding? repl ty with
    | none =>
      rw [hbinding] at h
      cases ty with
      | var param =>
        cases h
        rfl
      | node kind args => exact hnode kind args hty h
    | some binding =>
      rw [hbinding] at h
      cases ty with
      | node kind args => rw [oldestBinding?_node] at hbinding; cases hbinding
      | var param =>
        have hnone := hbound param binding hbinding
        cases binding with
        | var param' =>
          cases h
          rfl
        | node kind args => exact hnode kind args hnone h

/-- The replacement of a settled type parameter is no reference and no box. -/
theorem pointee?_composition_of_settled (hbound : NoPointerBound repl) {param : ParamTy}
    (hsettled : Settled repl param) : pointee? (composition repl (.var param)) = none := by
  rw [Settled] at hsettled
  cases hbinding : oldestBinding? repl (.var param) with
  | none =>
    rw [composition_of_unbound hbinding]
    rfl
  | some binding =>
    rw [hbinding] at hsettled
    cases binding with
    | var param' =>
      rw [hsettled]
      rfl
    | node kind args =>
      rw [hsettled, pointee?_composition, hbound param _ hbinding]
      rfl

/-- The type that is encoded is the type with its parameters replaced, without the
references and boxes around it. -/
theorem resolveTyparam_strip (order : IterOrder) (hsettled : ∀ param, Settled repl param)
    (hbound : NoPointerBound repl) (ty : Ty) :
    ∃ fuel, resolveTyparam order repl fuel (stripRefsAndBoxes ty) =
      some (stripRefsAndBoxes (composition repl ty)) := by
  have hresolved := resolveTyparam_of_settled order _ (stripRefsAndBoxes ty)
    (fun param _ => hsettled param) le_rfl
  refine ⟨_, hresolved.trans ?_⟩
  have hnone : pointee? (composition repl (stripRefsAndBoxes ty)) = none := by
    have hstrip := pointee?_strip ty
    cases hty : stripRefsAndBoxes ty with
    | var param => exact pointee?_composition_of_settled hbound (hsettled param)
    | node kind args =>
      rw [hty] at hstrip
      rw [pointee?_composition, hstrip]
      rfl
  rw [strip_composition, strip_of_noPointee hnone]

end Resolved

section Frames

variable {env : TypeEnv}

/-- The result of a call. -/
inductive Fits : Component → Result → Prop
  | snapApp (expr access : Expr) : Fits (.snapApp expr) (.expr access)
  | encodeType (ty : Ty) (typ : Typ) : Fits (.encodeType ty) (.typ typ)

/-- There is a plan for every type that is no reference and no box. -/
theorem exists_plan {ty : Ty} (h : pointee? ty = none) (name : String) :
    ∃ plan', plan env name ty = some plan' := by
  unfold plan
  split
  · cases h
  · cases h
  · exact ⟨_, rfl⟩
  · exact ⟨_, rfl⟩
  · exact ⟨_, rfl⟩
  · exact ⟨_, rfl⟩
  · exact ⟨_, rfl⟩
  · exact ⟨_, rfl⟩
  · dsimp only
    split
    · exact ⟨_, rfl⟩
    · split <;> exact ⟨_, rfl⟩
  · exact ⟨_, rfl⟩
  · exact ⟨_, rfl⟩
  · exact ⟨_, rfl⟩

/-- What the plan of a type is. -/
theorem plan_cases {name : String} {ty : Ty} {plan' : Plan} (h : plan env name ty = some plan') :
    (plan' = .primitive .int ∧ category env.adtDef ty = .int) ∨
    (plan' = .primitive .bool ∧ category env.adtDef ty = .bool) ∨
    (plan' = .unit ∧ category env.adtDef ty = .unit) ∨
    (category env.adtDef ty = .snapshot ∧
      ((∃ variants, plan' = .complex variants ∧ variants ≠ []) ∨
        (∃ elem length, plan' = .array elem length) ∨ (∃ elem, plan' = .slice elem) ∨
        plan' = .abstract)) := by
  unfold plan at h
  split at h
  · cases h
  · cases h
  · cases h
    exact .inl ⟨rfl, rfl⟩
  · cases h
    exact .inl ⟨rfl, rfl⟩
  · cases h
    exact .inl ⟨rfl, rfl⟩
  · cases h
    exact .inr (.inl ⟨rfl, rfl⟩)
  · cases h
    exact .inr (.inr (.inl ⟨rfl, rfl⟩))
  · next elems hne =>
      cases h
      refine .inr (.inr (.inr ⟨?_, .inl ⟨_, rfl, List.cons_ne_nil _ _⟩⟩))
      cases elems with
      | nil => exact absurd rfl hne
      | cons first rest => rfl
  · next adtName substs =>
      dsimp only at h
      split at h
      · next hunit =>
          cases h
          exact .inr (.inr (.inl ⟨rfl, hunit⟩))
      · next hunit =>
          have hsnapshot : category env.adtDef (.node (.adt adtName) substs) = .snapshot ∧
              (env.adtDef adtName).variants ≠ [] := by
            rw [category] at hunit ⊢
            split at hunit
            · exact absurd rfl hunit
            · next variant hone =>
                split at hunit
                · exact absurd rfl hunit
                · next hfields => exact ⟨if_neg hfields, by simp [hone]⟩
            · next hnil _ => exact ⟨rfl, hnil⟩
          refine .inr (.inr (.inr ⟨hsnapshot.1, ?_⟩))
          split at h
          · cases h
            exact .inl ⟨_, rfl, List.cons_ne_nil _ _⟩
          · cases h
            exact .inl ⟨_, rfl, by simpa using hsnapshot.2⟩
          · cases h
            exact .inr (.inr (.inr rfl))
  · cases h
    exact .inr (.inr (.inr ⟨rfl, .inr (.inl ⟨_, _, rfl⟩)⟩))
  · cases h
    exact .inr (.inr (.inr ⟨rfl, .inr (.inr (.inl ⟨_, rfl⟩))⟩))
  · cases h
    refine .inr (.inr (.inr ⟨?_, .inr (.inr (.inr rfl))⟩))
    unfold category
    split <;> simp_all

theorem assembleVariants_ne_nil {variants : List VariantPlan} (h : variants ≠ [])
    (results : List Result) : assembleVariants variants results ≠ [] := by
  cases variants with
  | nil => exact absurd rfl h
  | cons variant variants =>
    rw [assembleVariants]
    exact List.cons_ne_nil _ _

theorem exists_encodeComplex {variants : List SnapshotVariant} (h : variants ≠ [])
    (name : String) : ∃ snapshot, Snapshots.encodeComplex variants name = some snapshot ∧
      snapshot.predicateName = name := by
  cases variants with
  | nil => exact absurd rfl h
  | cons variant variants => exact ⟨_, rfl, rfl⟩

/-- The snapshot that is made has the type that was predicted. -/
theorem exists_finish {name : String} {ty : Ty} {plan' : Plan}
    (hplan : plan env name ty = some plan') {results : List Result}
    (hresults : List.Forall₂ Fits (plan'.components env) results) :
    ∃ snapshot, plan'.finish name results = some snapshot ∧
      snapshot.getType = predictedType env name ty := by
  have helem : ∀ elem, List.Forall₂ Fits [.encodeType elem] results →
      ∃ typ, results = [.typ typ] := by
    intro elem hfits
    obtain ⟨result, rest, hresult, hrest, rfl⟩ := List.forall₂_cons_left_iff.mp hfits
    rw [List.forall₂_nil_left_iff.mp hrest]
    cases hresult with
    | encodeType _ typ => exact ⟨typ, rfl⟩
  rw [predictedType]
  rcases plan_cases hplan with ⟨rfl, hcat⟩ | ⟨rfl, hcat⟩ | ⟨rfl, hcat⟩ |
    ⟨hcat, ⟨variants, rfl, hne⟩ | ⟨elem, length, rfl⟩ | ⟨elem, rfl⟩ | rfl⟩
  · exact ⟨_, rfl, by rw [hcat]; rfl⟩
  · exact ⟨_, rfl, by rw [hcat]; rfl⟩
  · exact ⟨_, rfl, by rw [hcat]; rfl⟩
  · obtain ⟨snapshot, hsnapshot, hname⟩ :=
      exists_encodeComplex (assembleVariants_ne_nil hne results) name
    refine ⟨.complex snapshot, by rw [Plan.finish, hsnapshot]; rfl, ?_⟩
    rw [hcat, Snapshot.getType, hname]
  · obtain ⟨typ, rfl⟩ := helem elem hresults
    exact ⟨_, rfl, by rw [hcat]; rfl⟩
  · obtain ⟨typ, rfl⟩ := helem elem hresults
    exact ⟨_, rfl, by rw [hcat]; rfl⟩
  · exact ⟨_, rfl, by rw [hcat]; rfl⟩

/-- An encoding in progress: its plan is that of its type, and it has the results of the
calls that were made. -/
structure Frame.Ok (env : TypeEnv) (frame : Frame) : Prop where
  plan_eq : SnapshotEncoder.plan env frame.predicateName frame.ty = some frame.plan
  typ_eq : frame.snapshotType = predictedType env frame.predicateName frame.ty
  results : ∃ front, frame.plan.components env = front ++ frame.todo ∧
    List.Forall₂ Fits front frame.results

theorem Frame.Ok.resume {frame : Frame} (h : frame.Ok env) {component : Component}
    {todo : List Component} (htodo : frame.todo = component :: todo) {result : Result}
    (hfits : Fits component result) (current : Expr) :
    Frame.Ok env { frame with
      todo := frame.todo.tail, results := frame.results ++ [result], current := current } where
  plan_eq := h.plan_eq
  typ_eq := h.typ_eq
  results := by
    obtain ⟨front, heq, hresults⟩ := h.results
    refine ⟨front ++ [component], ?_, List.rel_append hresults (.cons hfits .nil)⟩
    rw [heq, htodo, List.tail_cons, List.append_assoc]
    rfl

theorem Frame.Ok.exists_finish {frame : Frame} (h : frame.Ok env) (htodo : frame.todo = []) :
    ∃ snapshot, frame.plan.finish frame.predicateName frame.results = some snapshot ∧
      snapshot.getType = frame.snapshotType := by
  obtain ⟨front, heq, hresults⟩ := h.results
  rw [htodo, List.append_nil] at heq
  rw [h.typ_eq]
  exact SnapshotEncoder.exists_finish h.plan_eq (heq ▸ hresults)

end Frames

section Calls

variable {env : TypeEnv}

/-- A call of `encode_type` in progress. -/
structure EncodesType (env : TypeEnv) (ty : Ty) (m : Machine) : Prop where
  call : m.call = some (.encodeType ty)
  frames : ∀ frame ∈ m.stack, frame.Ok env
  /-- Each encoding but the innermost waits for a call. -/
  waits : ∀ frame ∈ m.stack.tail, frame.todo ≠ []
  busy : ∀ frame ∈ m.stack.head?, frame.todo = [] → m.control = .next ∨ m.control = .giveUp
  noPanic : m.control ≠ .panic

namespace EncodesType

variable {ty : Ty} {m m' : Machine}

/-- An encoding starts, or its type is found. -/
theorem enter (h : EncodesType env ty m) {inner : Ty} (hcontrol : m.control = .enter inner)
    {resolved : Ty} (hresolved : pointee? resolved = none) :
    EncodesType env ty (m.enter env resolved) := by
  have hbusy : ∀ frame ∈ m.stack, frame.todo ≠ [] := by
    intro frame hframe htodo
    cases hstack : m.stack with
    | nil =>
      rw [hstack] at hframe
      cases hframe
    | cons first rest =>
      rw [hstack] at hframe
      rcases List.mem_cons.mp hframe with rfl | hframe
      · rcases h.busy frame (by rw [hstack]; rfl) htodo with heq | heq <;>
          rw [hcontrol] at heq <;> cases heq
      · exact h.waits frame (by rw [hstack]; exact hframe) htodo
  have hfound : ∀ snapshot, EncodesType env ty { m with control := .back snapshot } :=
    fun snapshot =>
      { h with
        busy := fun frame hframe htodo =>
          absurd htodo (hbusy frame (List.mem_of_mem_head? hframe))
        noPanic := by simp }
  rw [Machine.enter]
  split
  · exact hfound _
  · exact hfound _
  · obtain ⟨plan', hplan⟩ : ∃ plan', plan env (env.predicateName resolved) resolved = some plan' :=
      exists_plan hresolved _
    simp only [hplan]
    exact
      { call := h.call
        frames := List.forall_mem_cons.mpr ⟨⟨hplan, rfl, [], rfl, .nil⟩, h.frames⟩
        waits := hbusy
        busy := fun _ _ _ => .inl rfl
        noPanic := by simp }

section Stack

variable {frame : Frame} {stack : List Frame}

section

variable (h : EncodesType env ty m) (hstack : m.stack = frame :: stack)

include h hstack

/-- The innermost encoding gets a result. -/
theorem resume {component : Component} {todo : List Component}
    (htodo : frame.todo = component :: todo) {result : Result} (hfits : Fits component result)
    (encoder : Encoder) :
    EncodesType env ty ({ m with encoder := encoder }.resume frame stack result) where
  call := h.call
  frames := by
    have hframes := h.frames
    rw [hstack, List.forall_mem_cons] at hframes
    exact List.forall_mem_cons.mpr ⟨hframes.1.resume htodo hfits frame.current, hframes.2⟩
  waits := by
    have hwaits := h.waits
    rw [hstack] at hwaits
    exact hwaits
  busy := fun _ _ _ => .inl rfl
  noPanic := by simp [Machine.resume]

theorem finish (htodo : frame.todo = []) : EncodesType env ty (m.finish frame stack) := by
  have hframes := h.frames
  rw [hstack, List.forall_mem_cons] at hframes
  have hwaits := h.waits
  rw [hstack, List.tail_cons] at hwaits
  obtain ⟨snapshot, hsnapshot, htyp⟩ := hframes.1.exists_finish htodo
  simp only [Machine.finish, hsnapshot, htyp, if_true]
  exact
    { call := h.call
      frames := hframes.2
      waits := fun other hother => hwaits other (List.mem_of_mem_tail hother)
      busy := fun other hother hnil => absurd hnil (hwaits other (List.mem_of_mem_head? hother))
      noPanic := by simp }

/-- The innermost encoding makes a call. -/
theorem calls (htodo : frame.todo ≠ []) (current : Expr) (inner : Ty) :
    EncodesType env ty { m with
      stack := { frame with current := current } :: stack, control := .enter inner } where
  call := h.call
  frames := by
    have hframes := h.frames
    rw [hstack, List.forall_mem_cons] at hframes
    exact List.forall_mem_cons.mpr
      ⟨⟨hframes.1.plan_eq, hframes.1.typ_eq, hframes.1.results⟩, hframes.2⟩
  waits := by
    have hwaits := h.waits
    rw [hstack] at hwaits
    exact hwaits
  busy := by
    rintro _ ⟨⟩ hnil
    exact absurd hnil htodo
  noPanic := by simp

theorem next : EncodesType env ty (m.next env frame stack) := by
  rw [Machine.next]
  split
  · next htodo => exact h.finish hstack htodo
  · next inner todo htodo =>
      have hne : frame.todo ≠ [] := by simp [htodo]
      have hm := h.calls hstack hne frame.current inner
      rw [← hstack] at hm
      exact hm
  · next expr todo htodo =>
      split
      · exact
          { h with
            busy := fun _ _ _ => .inr rfl
            noPanic := by simp }
      · exact h.resume hstack htodo (.snapApp _ _) m.encoder
      · exact h.resume hstack htodo (.snapApp _ _) _
      · next inner expr' _ => exact h.calls hstack (by simp [htodo]) expr' inner

end

end Stack

section

variable (h : EncodesType env ty m)

include h

/-- Without a panic no call of `encode_type` panics at its end. -/
theorem deliver (snapshot : Snapshot) :
    m.deliver snapshot = .idle (some (.typ snapshot.getType)) := by
  rw [Machine.deliver, h.call]

theorem back {snapshot : Snapshot} (hcontrol : m.control = .back snapshot) :
    EncodesType env ty (m.back snapshot) := by
  rw [Machine.back]
  split
  · next hstack =>
      rw [h.deliver]
      exact
        { h with
          busy := fun frame hframe => by simp [hstack] at hframe
          noPanic := by simp }
  · next frame stack hstack =>
      split
      · next htodo => exact h.resume hstack htodo (.snapApp _ _) m.encoder
      · next hother =>
          -- the innermost encoding waits for a call, which is one of `encode_type`
          cases htodo : frame.todo with
          | nil =>
            rcases h.busy frame (by rw [hstack]; rfl) htodo with heq | heq <;>
              rw [hcontrol] at heq <;> cases heq
          | cons component todo =>
            cases component with
            | snapApp expr => exact absurd htodo (hother expr todo)
            | encodeType inner => exact h.resume hstack htodo (.encodeType _ _) m.encoder

theorem giveUp (hcontrol : m.control = .giveUp) : EncodesType env ty m.giveUp := by
  rw [Machine.giveUp]
  split
  · next hstack =>
      exact
        { h with
          busy := fun frame hframe => by simp [hstack] at hframe
          noPanic := by simp }
  · next frame stack hstack =>
      have hframes := h.frames
      have hwaits := h.waits
      rw [hstack] at hframes hwaits
      exact
        { call := h.call
          frames := (List.forall_mem_cons.mp hframes).2
          waits := fun other hother => hwaits other (List.mem_of_mem_tail hother)
          busy := fun _ _ _ => .inr hcontrol
          noPanic := h.noPanic }

/-- A step, when no type is resolved to a reference or a box. -/
theorem proceed {resolveTyparam : Ty → Option Ty}
    (hresolve : ∀ inner resolved, resolveTyparam (stripRefsAndBoxes inner) = some resolved →
      pointee? resolved = none)
    (hstep : step env m (.proceed resolveTyparam) = some m') : EncodesType env ty m' := by
  rw [step] at hstep
  split at hstep
  · next inner hcontrol =>
      obtain ⟨resolved, hresolved, rfl⟩ := Option.map_eq_some_iff.mp hstep
      exact h.enter hcontrol (hresolve inner resolved hresolved)
  · next snapshot hcontrol =>
      cases hstep
      exact h.back hcontrol
  · split at hstep
    · cases hstep
    · next hstack =>
        cases hstep
        exact h.next hstack
  · next hcontrol =>
      cases hstep
      exact h.giveUp hcontrol
  · cases hstep
  · cases hstep

/-- Something else that is called fails. -/
theorem fail (hstep : step env m .fail = some m') : EncodesType env ty m' := by
  have hgiveUp : EncodesType env ty { m with control := .giveUp } :=
    { h with
      busy := fun _ _ _ => .inr rfl
      noPanic := by simp }
  rw [step] at hstep
  split at hstep
  · cases hstep
    exact hgiveUp
  · cases hstep
    exact hgiveUp
  · cases hstep

end

end EncodesType

end Calls

section SeesThrough

variable (env : TypeEnv) (order : IterOrder) (repl : TyparamRepl Kind)

/-- A step under a stack of substitutions. -/
def Goes (m m' : Machine) : Prop :=
  (∃ fuel, step env m (.proceed (resolveTyparam order repl fuel)) = some m') ∨
    step env m .fail = some m'

/-- The encoding of a type does not panic, and it goes on as for the type in which the type
parameters are replaced and that is no reference and no box. -/
structure SeesThrough (ty : Ty) : Prop where
  noPanic : ∀ m m' : Machine, m.stack = [] →
    ReflTransGen (Goes env order repl) (m.start env (.encodeType ty)) m' → m'.control ≠ .panic
  goesOn : ∃ fuel, ∀ m : Machine,
    step env (m.start env (.encodeType ty)) (.proceed (resolveTyparam order repl fuel)) =
      some ((m.start env (.encodeType ty)).enter env (stripRefsAndBoxes (composition repl ty)))

variable {env order repl} {ty : Ty}

theorem encodesType_start {m : Machine} (hstack : m.stack = []) :
    EncodesType env ty (m.start env (.encodeType ty)) where
  call := rfl
  frames := by simp [Machine.start, hstack]
  waits := by simp [Machine.start, hstack]
  busy := by simp [Machine.start, hstack]
  noPanic := by simp [Machine.start]

/-- The type that an encoding starts with. -/
theorem enter_inj {m : Machine} (hm : m.encoder = Encoder.new) {resolved target : Ty}
    (htarget : pointee? target = none)
    (h : m.enter env resolved = m.enter env target) : resolved = target := by
  obtain ⟨plan', hplan⟩ : ∃ plan', plan env (env.predicateName target) target = some plan' :=
    exists_plan htarget _
  have hstack := congrArg (fun m => m.stack.head?.map Frame.ty) h
  have hlength := congrArg (fun m => m.stack.length) h
  have hnone : ∀ name, m.encoder.encoded.get? name = none ∧
      m.encoder.inProgress.get? name = none := by
    intro name
    rw [hm]
    exact ⟨rfl, rfl⟩
  simp only [Machine.enter, (hnone _).1, (hnone _).2, hplan] at hstack hlength
  split at hstack
  · next heq =>
      rw [heq] at hlength
      simp at hlength
  · simpa using hstack

theorem SeesThrough.exists_resolved (h : SeesThrough env order repl ty) :
    ∃ fuel, resolveTyparam order repl fuel (stripRefsAndBoxes ty) =
      some (stripRefsAndBoxes (composition repl ty)) := by
  obtain ⟨fuel, hgoes⟩ := h.goesOn
  have hstep := hgoes ⟨Encoder.new, [], none, Snapshots.snapUnit, .idle none⟩
  obtain ⟨resolved, hresolved, henter⟩ := Option.map_eq_some_iff.mp hstep
  refine ⟨fuel, hresolved.trans (congrArg some ?_)⟩
  exact enter_inj rfl (pointee?_strip _) henter

/-- The encoding of every type sees through references and boxes just when the type
parameters are settled and none is replaced by a reference or a box. -/
theorem seesThrough_iff (env : TypeEnv) (order : IterOrder) (repl : TyparamRepl Kind) :
    (∀ ty, SeesThrough env order repl ty) ↔
      (∀ param, Settled repl param) ∧ NoPointerBound repl := by
  constructor
  · intro h
    -- inside of a tuple a type is resolved as it is
    have hsettled : ∀ param, Settled repl param := by
      refine (resolvesTo_composition_iff order repl).mp fun ty => ?_
      obtain ⟨fuel, hfuel⟩ := (h (.node .tuple [ty])).exists_resolved
      have hstrip : stripRefsAndBoxes (composition repl (.node .tuple [ty])) =
          .node .tuple [composition repl ty] := by
        rw [composition_node]
        exact strip_of_noPointee rfl
      rw [hstrip, strip_of_noPointee rfl] at hfuel
      cases fuel with
      | zero => cases hfuel
      | succ fuel =>
        rw [resolveTyparam_succ, oldestBinding?_node] at hfuel
        obtain ⟨results, hresults, heq⟩ := Option.map_eq_some_iff.mp hfuel
        rw [Term.node.injEq] at heq
        rw [heq.2] at hresults
        obtain ⟨_, _, hfirst, -, heq⟩ :=
          List.forall₂_cons_left_iff.mp (mapM_eq_some_iff.mp hresults)
        rw [(List.cons_eq_cons.mp heq).1]
        exact ⟨fuel, hfirst⟩
    refine ⟨hsettled, fun param binding hbinding => ?_⟩
    -- a reference stays, but what is encoded is none
    obtain ⟨fuel, hfuel⟩ := (h (.var param)).exists_resolved
    rw [strip_of_noPointee rfl] at hfuel
    have hnone := pointee?_strip (composition repl (.var param))
    cases fuel with
    | zero => cases hfuel
    | succ fuel =>
      rw [resolveTyparam_succ, hbinding, Option.getD_some] at hfuel
      cases binding with
      | var param' => rfl
      | node kind args =>
        obtain ⟨results, hresults, heq⟩ := Option.map_eq_some_iff.mp hfuel
        rw [← heq] at hnone
        exact (pointee?_eq_none_iff (mapM_eq_some_iff.mp hresults).length_eq).mpr hnone
  · rintro ⟨hsettled, hbound⟩ ty
    constructor
    · intro m m' hstack hrun
      have hinv : EncodesType env ty m' := by
        induction hrun with
        | refl => exact encodesType_start hstack
        | tail _ hstep ih =>
          rcases hstep with ⟨fuel, hstep⟩ | hstep
          · exact ih.proceed (fun inner resolved hresolved =>
              pointee?_resolveTyparam hbound (pointee?_strip inner) hresolved) hstep
          · exact ih.fail hstep
      exact hinv.noPanic
    · obtain ⟨fuel, hfuel⟩ := resolveTyparam_strip order hsettled hbound ty
      refine ⟨fuel, fun m => ?_⟩
      exact Option.map_eq_some_iff.mpr ⟨_, hfuel, rfl⟩

end SeesThrough

namespace Witness

def i32 : Ty := .node (.int .i32) []

/-- A program without definitions, in which `i32`, `bool`, `()` and `&i32` occur. -/
def plainEnv : TypeEnv where
  adtDef := fun _ => ⟨.union, []⟩
  predicateName := fun ty =>
    match category (fun _ => ⟨.union, []⟩) ty with
    | .int => "i32"
    | .bool => "bool"
    | .unit => "tuple0$"
    | .snapshot => "ref$i32"
  decodeTypePredicate := fun _ => none
  category_eq := by
    intro ty ty' h
    revert h
    generalize category (fun _ => ⟨.union, []⟩) ty = left
    generalize category (fun _ => ⟨.union, []⟩) ty' = right
    cases left <;> cases right <;> decide
  decodes := by simp

def paramT : ParamTy := ⟨0, "T"⟩

/-- The type parameter `T` is replaced by `&i32`. -/
def toReference : TyparamRepl Kind :=
  [{ tymap := HashMap.empty.insert (.var paramT) (.node (.ref false) [i32])
     params := by
       intro binding hbinding
       rw [List.mem_singleton.mp hbinding]
       exact ⟨paramT, rfl⟩ }]

/-- The encoding of `T` panics. -/
theorem not_seesThrough_reference :
    ¬ SeesThrough plainEnv IterOrder.identity toReference (.var paramT) := by
  intro h
  have hstep : Goes plainEnv IterOrder.identity toReference
      (Machine.start plainEnv ⟨Encoder.new, [], none, Snapshots.snapUnit, .idle none⟩
        (.encodeType (.var paramT)))
      { Machine.enter plainEnv (Machine.start plainEnv
          ⟨Encoder.new, [], none, Snapshots.snapUnit, .idle none⟩ (.encodeType (.var paramT)))
          (.node (.ref false) [i32]) with control := .panic } :=
    .inl ⟨2, rfl⟩
  exact h.noPanic _ _ rfl (.single hstep) rfl

end Witness

end Prusti.SnapshotEncoder

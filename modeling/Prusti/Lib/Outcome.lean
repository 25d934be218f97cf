/-
Computations that return a value, stop with an error of the caller's own, or
fail: by a panic, or because the fuel that bounds a recursion ran out.
-/
import Mathlib.Tactic.Common

namespace Prusti.Lib

universe u v

variable {ε : Type u} {α β : Type v}

/-- A sequence that returns went through its first part. -/
theorem exists_of_bind_eq_ok {first : Except ε α} {next : α → Except ε β} {result : β}
    (h : first >>= next = .ok result) : ∃ value, first = .ok value ∧ next value = .ok result := by
  cases first with
  | error => cases h
  | ok value => exact ⟨value, rfl, h⟩

@[simp] theorem bind_eq_ok_iff (first : Except ε α) (next : α → Except ε β) (result : β) :
    (first >>= next) = .ok result ↔ ∃ value, first = .ok value ∧ next value = .ok result := by
  refine ⟨exists_of_bind_eq_ok, ?_⟩
  rintro ⟨value, rfl, h⟩
  exact h

@[simp] theorem pure_eq_ok_iff (value result : α) :
    (pure value : Except ε α) = .ok result ↔ value = result := by
  change Except.ok value = Except.ok result ↔ _
  simp

theorem ok_bind (value : α) (next : α → Except ε β) :
    (Except.ok value >>= next) = next value := rfl

/-- The ways in which a computation ends without a value. -/
inductive Stop (ε : Type u) where
  | error (error : ε)
  | panic
  | outOfFuel
deriving Repr, DecidableEq

namespace Stop

/-- Turn a missing value into a panic. -/
def orPanic : Option α → Except (Stop ε) α
  | some value => .ok value
  | none => .error .panic

/-- Turn a missing value into the end of the fuel. -/
def orOutOfFuel : Option α → Except (Stop ε) α
  | some value => .ok value
  | none => .error .outOfFuel

/-- An assertion. -/
def assert (condition : Bool) : Except (Stop ε) PUnit.{v + 1} :=
  if condition then .ok ⟨⟩ else .error .panic

/-- The result of a callback, whose errors are passed on. -/
def callback : Except ε α → Except (Stop ε) α
  | .ok value => .ok value
  | .error raised => .error (.error raised)

/-- A computation ends in a value or in an error of the caller's own. -/
def NoPanic (outcome : Except (Stop ε) α) : Prop :=
  ∀ stop, outcome = .error stop → ∃ raised, stop = .error raised

@[simp] theorem orPanic_eq_ok_iff (value? : Option α) (value : α) :
    (orPanic value? : Except (Stop ε) α) = .ok value ↔ value? = some value := by
  cases value? <;> simp [orPanic]

@[simp] theorem orOutOfFuel_eq_ok_iff (value? : Option α) (value : α) :
    (orOutOfFuel value? : Except (Stop ε) α) = .ok value ↔ value? = some value := by
  cases value? <;> simp [orOutOfFuel]

@[simp] theorem assert_eq_ok_iff (condition : Bool) (nothing : PUnit.{v + 1}) :
    (assert condition : Except (Stop ε) PUnit) = .ok nothing ↔ condition = true := by
  cases condition <;> simp [assert]

@[simp] theorem callback_eq_ok_iff (outcome : Except ε α) (value : α) :
    callback outcome = .ok value ↔ outcome = .ok value := by
  cases outcome <;> simp [callback]

theorem exists_of_isOk {outcome : Except (Stop ε) α} (h : outcome.isOk = true) :
    ∃ value, outcome = .ok value := by
  cases outcome with
  | error => cases h
  | ok value => exact ⟨value, rfl⟩

theorem toOption_eq_some_iff {outcome : Except (Stop ε) α} {value : α} :
    outcome.toOption = some value ↔ outcome = .ok value := by
  cases outcome <;> simp [Except.toOption]

/-- A sequence that does not run out of fuel has a first part that does not. -/
theorem bind_pure_ne_outOfFuel {γ : Type v} {first : Except (Stop ε) α}
    {next : α → Except (Stop ε) β} {f : α → γ} (h : first >>= next ≠ .error .outOfFuel) :
    (do let value ← first; pure (f value)) ≠ (.error .outOfFuel : Except (Stop ε) γ) := by
  rintro heq
  cases first with
  | error =>
    cases heq
    exact h rfl
  | ok => cases heq

/-- The rule for sequences that do not run out of fuel. -/
theorem bind_ne_outOfFuel {first : Except (Stop ε) α} {next : α → Except (Stop ε) β}
    (h : first ≠ .error .outOfFuel)
    (hnext : ∀ value, first = .ok value → next value ≠ .error .outOfFuel) :
    first >>= next ≠ .error .outOfFuel := by
  cases first with
  | error stop =>
    intro heq
    cases heq
    exact h rfl
  | ok value => exact hnext value rfl

theorem callback_ne_outOfFuel (outcome : Except ε α) : callback outcome ≠ .error .outOfFuel := by
  cases outcome <;> simp [callback]

@[simp] theorem map_eq_ok_iff (f : α → β) (outcome : Except (Stop ε) α) (result : β) :
    f <$> outcome = .ok result ↔ ∃ value, outcome = .ok value ∧ f value = result := by
  cases outcome with
  | error stop =>
    change Except.error stop = Except.ok result ↔ _
    simp
  | ok value =>
    change Except.ok (f value) = Except.ok result ↔ _
    simp

namespace NoPanic

theorem ok (value : α) : NoPanic (.ok value : Except (Stop ε) α) := by
  intro stop h
  cases h

theorem pure (value : α) : NoPanic (Pure.pure value : Except (Stop ε) α) := ok value

theorem orPanic {value? : Option α} (h : ∃ value, value? = some value) :
    NoPanic (Stop.orPanic value? : Except (Stop ε) α) := by
  obtain ⟨value, rfl⟩ := h
  exact ok value

theorem orOutOfFuel {value? : Option α} (h : ∃ value, value? = some value) :
    NoPanic (Stop.orOutOfFuel value? : Except (Stop ε) α) := by
  obtain ⟨value, rfl⟩ := h
  exact ok value

theorem assert {condition : Bool} (h : condition = true) :
    NoPanic (Stop.assert condition : Except (Stop ε) PUnit.{v + 1}) := by
  subst h
  exact ok _

theorem callback (outcome : Except ε α) : NoPanic (Stop.callback outcome) := by
  intro stop h
  cases outcome with
  | ok value => cases h
  | error raised =>
    cases h
    exact ⟨raised, rfl⟩

/-- The rule for sequences: the second part may use what the first one
returned. -/
theorem bind {first : Except (Stop ε) α} {next : α → Except (Stop ε) β} (hfirst : NoPanic first)
    (hnext : ∀ value, first = .ok value → NoPanic (next value)) :
    NoPanic (first >>= next) := by
  intro stop h
  cases first with
  | error stop' =>
    change Except.error stop' = Except.error stop at h
    cases h
    exact hfirst stop rfl
  | ok value => exact hnext value rfl stop h

/-- The rule for loops: an invariant of the items that are done, kept by
every step that returns. -/
theorem foldlM {ι : Type u} {step : α → ι → Except (Stop ε) α}
    (Inv : List ι → α → Prop) (items done : List ι) (state : α) (hinv : Inv done state)
    (hstep : ∀ front item back state, done ++ items = front ++ item :: back →
      Inv front state → NoPanic (step state item) ∧
        ∀ state', step state item = .ok state' → Inv (front ++ [item]) state') :
    NoPanic (items.foldlM step state) := by
  induction items generalizing done state with
  | nil => exact pure state
  | cons item items ih =>
    rw [List.foldlM_cons]
    obtain ⟨hno, hkeep⟩ := hstep done item items state rfl hinv
    refine bind hno ?_
    intro state' hstate'
    refine ih (done ++ [item]) state' (hkeep state' hstate') ?_
    intro front item' back state'' hsplit hinv'
    refine hstep front item' back state'' ?_ hinv'
    rw [← hsplit, List.append_assoc, List.singleton_append]

end NoPanic

/-- The rule for loops that return: an invariant of the items that are done,
kept by every step that returns, holds at the end. -/
theorem foldlM_inv {ι : Type u} {step : α → ι → Except (Stop ε) α}
    (Inv : List ι → α → Prop) (items done : List ι) (state result : α) (hinv : Inv done state)
    (hstep : ∀ front item back state state',
      done ++ items = front ++ item :: back → Inv front state →
        step state item = .ok state' → Inv (front ++ [item]) state')
    (hresult : items.foldlM step state = .ok result) :
    Inv (done ++ items) result := by
  induction items generalizing done state with
  | nil =>
    rw [List.foldlM_nil, pure_eq_ok_iff] at hresult
    subst hresult
    rwa [List.append_nil]
  | cons item items ih =>
    rw [List.foldlM_cons, bind_eq_ok_iff] at hresult
    obtain ⟨state', hstate', hresult⟩ := hresult
    rw [← List.singleton_append, ← List.append_assoc]
    refine ih (done ++ [item]) state' ?_ ?_ hresult
    · exact hstep done item items state state' rfl hinv hstate'
    · intro front item' back state'' state''' hsplit
      refine hstep front item' back state'' state''' ?_
      rw [← hsplit, List.append_assoc, List.singleton_append]

end Stop

end Prusti.Lib

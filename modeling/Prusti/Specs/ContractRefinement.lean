/-
Contracts of trait methods and of their implementations: how they are merged for a caller
and where the implementation is checked.
-/
import Mathlib.Data.List.Basic
import Prusti.Lib.Outcome
import Prusti.Specs.Assertion

namespace Prusti.Specs

open Prusti.Lib

variable {EID ET AT : Type}

/-- Specification of a procedure. -/
structure ProcedureSpecification (EID ET AT : Type) where
  pres : List (Assertion EID ET AT)
  posts : List (Assertion EID ET AT)
  /-- Pledges in the postcondition. -/
  pledges : List (Pledge EID ET AT)
  predicateBody : Option (Assertion EID ET AT)
  pure : Bool
  trusted : Bool

namespace ProcedureSpecification

def empty : ProcedureSpecification EID ET AT := ⟨[], [], [], none, false, false⟩

/-- Trait implementation method refinement: what `other` provides overwrites what `self`
provides. -/
def refine (self other : ProcedureSpecification EID ET AT) : ProcedureSpecification EID ET AT where
  pres := if other.pres.isEmpty then self.pres else other.pres
  posts := if other.posts.isEmpty then self.posts else other.posts
  pledges := if other.pledges.isEmpty then self.pledges else other.pledges
  predicateBody := if other.predicateBody.isNone then self.predicateBody else other.predicateBody
  pure := other.pure
  trusted := other.trusted

end ProcedureSpecification

/-- What is checked of the body of an implementation: its contract, and the assertions
that its specification refines that of the trait. -/
structure CheckedContract (EID ET AT : Type) where
  specification : ProcedureSpecification EID ET AT
  preconditionWeakening : Option (Assertion EID ET AT)
  postconditionStrengthening : Option (Assertion EID ET AT)

/-- Prepare the contract of an implementation, with the assertions to check specification
refinement. -/
def checkedContract (traitSpec implSpec : ProcedureSpecification EID ET AT) :
    Except (Stop String) (CheckedContract EID ET AT) := do
  let (pres, weakening) :=
    if implSpec.pres.isEmpty then (implSpec.pres ++ traitSpec.pres, none)
    else (implSpec.pres, some (.implies (.and traitSpec.pres) (.and implSpec.pres)))
  if implSpec.posts.isEmpty && implSpec.pledges.isEmpty then
    let spec := { implSpec with
      pres := pres
      posts := implSpec.posts ++ traitSpec.posts
      pledges := implSpec.pledges ++ traitSpec.pledges }
    return ⟨spec, weakening, none⟩
  else
    -- refining specifications with pledges is not supported
    Stop.assert implSpec.pledges.isEmpty
    let strengthening := .implies (.and implSpec.posts) (.and traitSpec.posts)
    return ⟨{ implSpec with pres := pres }, weakening, some strengthening⟩

/-- What assertions and pledges say in the states before and after a call. -/
structure Meaning (EID ET AT : Type) where
  pre : Assertion EID ET AT → Prop
  post : Assertion EID ET AT → Prop
  pledge : Pledge EID ET AT → Prop

namespace Assertion

mutual

/-- Conjunctions and implications mean what they say; other assertions mean anything. -/
def Holds (meaning : Assertion EID ET AT → Prop) : Assertion EID ET AT → Prop
  | .and assertions => HoldEach meaning assertions
  | .implies lhs rhs => Holds meaning lhs → Holds meaning rhs
  | other => meaning other

def HoldEach (meaning : Assertion EID ET AT → Prop) : List (Assertion EID ET AT) → Prop
  | [] => True
  | assertion :: rest => Holds meaning assertion ∧ HoldEach meaning rest

end

theorem holdEach_iff {meaning : Assertion EID ET AT → Prop}
    {assertions : List (Assertion EID ET AT)} :
    HoldEach meaning assertions ↔ ∀ assertion ∈ assertions, assertion.Holds meaning := by
  induction assertions with
  | nil => simp [HoldEach]
  | cons assertion rest ih => simp [HoldEach, ih]

mutual

theorem holds_true (assertion : Assertion EID ET AT) : assertion.Holds fun _ => True := by
  match assertion with
  | .expr _ => simp [Holds]
  | .and assertions => exact holdEach_true assertions
  | .implies lhs rhs => exact fun _ => holds_true rhs
  | .typeCond _ _ => simp [Holds]
  | .forAll _ _ _ => simp [Holds]
  | .exist _ _ _ => simp [Holds]
  | .specEntailment _ _ _ _ => simp [Holds]

theorem holdEach_true (assertions : List (Assertion EID ET AT)) :
    HoldEach (fun _ => True) assertions := by
  match assertions with
  | [] => trivial
  | assertion :: rest => exact ⟨holds_true assertion, holdEach_true rest⟩

end

end Assertion

namespace CheckedContract

variable (contract : CheckedContract EID ET AT)

/-- What the checked postcondition, its pledges and the strengthening give. -/
def Gives (claim : Meaning EID ET AT → Prop) : Prop :=
  ∀ meaning : Meaning EID ET AT,
    (∀ post ∈ contract.specification.posts, post.Holds meaning.post) →
    (∀ pledge ∈ contract.specification.pledges, meaning.pledge pledge) →
    (∀ strengthening ∈ contract.postconditionStrengthening,
      strengthening.Holds meaning.post) →
      claim meaning

end CheckedContract

/-- A contract that was checked for an implementation agrees with what callers use. -/
structure ContractsAgree (traitSpec implSpec : ProcedureSpecification EID ET AT)
    (contract : CheckedContract EID ET AT) : Prop where
  /-- A caller that knows the type of the receiver assumes only what was checked. -/
  posts : ∀ post ∈ (traitSpec.refine implSpec).posts,
    post ∈ contract.specification.posts ∨ contract.Gives fun meaning => post.Holds meaning.post
  pledges : ∀ pledge ∈ (traitSpec.refine implSpec).pledges,
    pledge ∈ contract.specification.pledges ∨ contract.Gives fun meaning => meaning.pledge pledge
  /-- It establishes everything that the body assumes. -/
  pres : ∀ pre ∈ contract.specification.pres, pre ∈ (traitSpec.refine implSpec).pres
  /-- A caller that only knows the trait assumes only what was checked. -/
  traitPosts : ∀ post ∈ traitSpec.posts, contract.Gives fun meaning => post.Holds meaning.post
  traitPledges : ∀ pledge ∈ traitSpec.pledges, contract.Gives fun meaning => meaning.pledge pledge
  /-- It establishes everything that the body assumes, if the weakening holds. -/
  traitPres : ∀ meaning : Meaning EID ET AT,
    (∀ pre ∈ traitSpec.pres, pre.Holds meaning.pre) →
    (∀ weakening ∈ contract.preconditionWeakening, weakening.Holds meaning.pre) →
      ∀ pre ∈ contract.specification.pres, pre.Holds meaning.pre

section Agree

variable {traitSpec implSpec : ProcedureSpecification EID ET AT}
  {contract : CheckedContract EID ET AT}

/-- The preconditions that are assumed, and when the weakening is checked. -/
structure ChecksPres (traitSpec implSpec : ProcedureSpecification EID ET AT)
    (contract : CheckedContract EID ET AT) : Prop where
  pres : contract.specification.pres = (traitSpec.refine implSpec).pres
  weakening : implSpec.pres ≠ [] → contract.preconditionWeakening =
    some (.implies (.and traitSpec.pres) (.and implSpec.pres))

/-- What the definition site accepts: an implementation without postconditions and pledges,
which takes over those of the trait, or one with postconditions and without pledges. -/
theorem checkedContract_cases (h : checkedContract traitSpec implSpec = .ok contract) :
    ChecksPres traitSpec implSpec contract ∧ implSpec.pledges = [] ∧
      ((implSpec.posts = [] ∧ contract.specification.posts = traitSpec.posts ∧
          contract.specification.pledges = traitSpec.pledges) ∨
        (implSpec.posts ≠ [] ∧ contract.specification.posts = implSpec.posts ∧
          contract.specification.pledges = [] ∧ contract.postconditionStrengthening =
            some (.implies (.and implSpec.posts) (.and traitSpec.posts)))) := by
  obtain ⟨pres, posts, pledges, _, _, _⟩ := implSpec
  cases pres <;> cases posts <;> cases pledges <;> cases h <;>
    exact ⟨⟨rfl, by simp⟩, rfl, by simp⟩

theorem ChecksPres.holds (h : ChecksPres traitSpec implSpec contract)
    {meaning : Meaning EID ET AT} (hpres : ∀ pre ∈ traitSpec.pres, pre.Holds meaning.pre)
    (hweakening : ∀ weakening ∈ contract.preconditionWeakening, weakening.Holds meaning.pre) :
    ∀ pre ∈ contract.specification.pres, pre.Holds meaning.pre := by
  rw [h.pres, ProcedureSpecification.refine]
  split
  · exact hpres
  · next hne =>
      have hholds := hweakening _ (h.weakening (by simpa using hne))
      rw [Assertion.Holds, Assertion.Holds, Assertion.Holds, Assertion.holdEach_iff,
        Assertion.holdEach_iff] at hholds
      exact hholds hpres

/-- Everything but the pledges of the trait agrees. -/
theorem contractsAgree_of (h : checkedContract traitSpec implSpec = .ok contract)
    (hpledges : implSpec.posts = [] ∨ traitSpec.pledges = []) :
    ContractsAgree traitSpec implSpec contract := by
  obtain ⟨hpres, hnone, hcases⟩ := checkedContract_cases h
  have hrefine : (traitSpec.refine implSpec).pledges = traitSpec.pledges := by
    rw [ProcedureSpecification.refine, hnone]
    rfl
  rcases hcases with ⟨hposts, hcheckedPosts, hcheckedPledges⟩ |
    ⟨hposts, hcheckedPosts, hcheckedPledges, hstrengthening⟩
  · have hrefinePosts : (traitSpec.refine implSpec).posts = traitSpec.posts := by
      rw [ProcedureSpecification.refine, hposts]
      rfl
    refine ⟨?_, ?_, ?_, ?_, ?_, fun meaning => hpres.holds⟩
    · intro post hmem
      rw [hrefinePosts, ← hcheckedPosts] at hmem
      exact .inl hmem
    · intro pledge hmem
      rw [hrefine, ← hcheckedPledges] at hmem
      exact .inl hmem
    · intro pre hmem
      rwa [← hpres.pres]
    · intro post hmem meaning hholds _ _
      exact hholds post (hcheckedPosts ▸ hmem)
    · intro pledge hmem meaning _ hholds _
      exact hholds pledge (hcheckedPledges ▸ hmem)
  · have hempty := hpledges.resolve_left hposts
    have hrefinePosts : (traitSpec.refine implSpec).posts = implSpec.posts := by
      simp [ProcedureSpecification.refine, hposts]
    refine ⟨?_, ?_, ?_, ?_, ?_, fun meaning => hpres.holds⟩
    · intro post hmem
      rw [hrefinePosts, ← hcheckedPosts] at hmem
      exact .inl hmem
    · intro pledge hmem
      rw [hrefine, hempty] at hmem
      cases hmem
    · intro pre hmem
      rwa [← hpres.pres]
    · intro post hmem meaning hholds _ hstronger
      have himplies := hstronger _ hstrengthening
      rw [Assertion.Holds, Assertion.Holds, Assertion.Holds, Assertion.holdEach_iff,
        Assertion.holdEach_iff] at himplies
      exact himplies (hcheckedPosts ▸ hholds) post hmem
    · intro pledge hmem
      rw [hempty] at hmem
      cases hmem

/-- The contracts agree, whenever the definition site accepts the specifications, if and
only if no pledge of the trait is lost beside the postconditions of an implementation
without pledges. -/
theorem contractsAgree_iff (traitSpec implSpec : ProcedureSpecification EID ET AT) :
    (∀ contract, checkedContract traitSpec implSpec = .ok contract →
        ContractsAgree traitSpec implSpec contract) ↔
      implSpec.posts = [] ∨ implSpec.pledges ≠ [] ∨ traitSpec.pledges = [] := by
  constructor
  · intro h
    by_cases hposts : implSpec.posts = []
    · exact .inl hposts
    by_cases hnone : implSpec.pledges = []
    · refine .inr (.inr (List.eq_nil_iff_forall_not_mem.mpr fun pledge hmem => ?_))
      have haccepts : ∃ contract, checkedContract traitSpec implSpec = .ok contract := by
        simp only [checkedContract, hnone]
        simp [Stop.assert, hposts]
      obtain ⟨contract, hcontract⟩ := haccepts
      obtain ⟨_, _, hcases⟩ := checkedContract_cases hcontract
      obtain ⟨_, _, hchecked, hstrengthening⟩ := hcases.resolve_left fun h => hposts h.1
      -- everything holds but the pledge
      have hgives := (h contract hcontract).traitPledges pledge hmem
        ⟨fun _ => True, fun _ => True, fun _ => False⟩
      refine hgives (fun post _ => post.holds_true) ?_
        (fun strengthening _ => strengthening.holds_true)
      rw [hchecked]
      intro pledge hpledge
      cases hpledge
    · exact .inr (.inl hnone)
  · rintro (hposts | hpledges | hpledges) contract hcontract
    · exact contractsAgree_of hcontract (.inl hposts)
    · exact absurd (checkedContract_cases hcontract).2.1 hpledges
    · exact contractsAgree_of hcontract (.inr hpledges)

end Agree

namespace Witness

/-- `ensures` with one expression. -/
def ensuresSpec : ProcedureSpecification Nat String String :=
  { ProcedureSpecification.empty with posts := [.expr ⟨.dummy, 101, "result > 0"⟩] }

/-- `after_expiry` with one expression. -/
def pledgeSpec : ProcedureSpecification Nat String String :=
  { ProcedureSpecification.empty with
    pledges := [⟨none, none, .expr ⟨.dummy, 102, "self.valid()"⟩⟩] }

/-- The pledge of the trait is assumed by callers and checked by nobody. -/
theorem pledge_not_contractsAgree : ¬ ∀ contract,
    checkedContract pledgeSpec ensuresSpec = .ok contract →
      ContractsAgree pledgeSpec ensuresSpec contract := by
  intro h
  have hpledges := (h _ rfl).pledges _ List.mem_cons_self
  rcases hpledges with hmem | hgives
  · cases hmem
  · refine hgives ⟨fun _ => True, fun _ => True, fun _ => False⟩
      (fun post _ => post.holds_true) nofun fun strengthening _ => strengthening.holds_true

end Witness

end Prusti.Specs

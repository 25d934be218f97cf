/-
The loans that are active at a location, and those that die there or on an edge to a
successor.
-/
import Prusti.Borrowck.ZombieFacts
import Prusti.Mir.Body

namespace Prusti.Borrowck

open Prusti.Lib Prusti.Mir

universe u

/-- Either the start of a statement or the middle of it. -/
inductive PointType where
  | start
  | mid
deriving Repr, DecidableEq

structure Point where
  location : Location
  typ : PointType
deriving Repr, DecidableEq

/-- A body with the facts that its live loans are read off from.  Every point has an
index. -/
structure LivenessInfo (Ty : Type u) where
  mir : Body Ty
  borrowckInFacts : AllInputFacts
  borrowckOutFacts : AllOutputFacts
  interner : Point → PointIndex

namespace LivenessInfo

variable {Ty : Type u} (info : LivenessInfo Ty)

def zombieFacts : ZombieFacts := deriveZombieRequires info.borrowckInFacts info.borrowckOutFacts

def getPoint (location : Location) (typ : PointType) : PointIndex := info.interner ⟨location, typ⟩

def getSuccessors (location : Location) : List Location :=
  if location.statementIndex < (info.mir.statements location.block).length then
    [⟨location.block, location.statementIndex + 1⟩]
  else (info.mir.successors location.block).map fun successor => ⟨successor, 0⟩

/-- Check if the terminator is return. -/
def isReturn (location : Location) : Bool :=
  location.statementIndex = (info.mir.statements location.block).length &&
    match info.mir.terminator? location.block with
    | some .return => true
    | _ => false

def getBorrowLiveAt (zombie : Bool) : HashMap PointIndex (List Loan) :=
  if zombie then info.zombieFacts.zombieBorrowLiveAt else info.borrowckOutFacts.borrowLiveAt

/-- Add the loans that are created at the point. -/
def addCreated (midPoint : PointIndex) (loans : List Loan)
    (borrowed : Region × Loan × PointIndex) : List Loan :=
  if borrowed.2.2 = midPoint ∧ borrowed.2.1 ∉ loans then loans ++ [borrowed.2.1] else loans

/-- The loans that are active, including those that are about to die. -/
def getActiveLoans (location : Location) (zombie : Bool) : Option (List Loan) := do
  let borrowLiveAt := info.getBorrowLiveAt zombie
  let startPoint := info.getPoint location .start
  let midPoint := info.getPoint location .mid
  let loans ←
    match borrowLiveAt.get? midPoint with
    | some midLoans =>
      let midLoans := midLoans.insertionSort (· ≤ ·)
      let startLoans := ((borrowLiveAt.get? startPoint).getD []).insertionSort (· ≤ ·)
      -- asserted: the middle may have more loans than the start, but not fewer
      if startLoans.all (· ∈ midLoans) then some midLoans else none
    | none => if (borrowLiveAt.get? startPoint).isNone then some [] else none
  if zombie then some loans
  else some (info.borrowckInFacts.borrowRegion.foldl (addCreated midPoint) loans)

def becomingZombieLoans (location : Location) : List Loan :=
  (info.zombieFacts.borrowBecomeZombieAt.get? (info.getPoint location .mid)).getD []

/-- The loans of a point are looked up in the map of live loans. -/
def aliveAtStart (zombie : Bool) (location : Location) (loan : Loan) : Bool :=
  match (info.getBorrowLiveAt zombie).get? (info.getPoint location .start) with
  | some loans => loan ∈ loans
  | none => false

/-- The loans that die exactly after a location. -/
def getLoansDyingAt (location : Location) (zombie : Bool) : Option (List Loan) := do
  let successors := info.getSuccessors location
  let active ← info.getActiveLoans location zombie
  let dying := active.filter fun loan =>
    let aliveInSuccessor := successors.any fun successor =>
      info.aliveAtStart zombie successor loan
    !aliveInSuccessor && !(successors.isEmpty && info.isReturn location)
  return dying.filter (· ∉ info.becomingZombieLoans location)

/-- The loans that die between two consecutive locations. -/
def getLoansDyingBetween (initialLoc finalLoc : Location) (zombie : Bool) : Option (List Loan) := do
  let active ← info.getActiveLoans initialLoc zombie
  let dying := active.filter fun loan => !info.aliveAtStart zombie finalLoc loan
  return dying.filter (· ∉ info.becomingZombieLoans initialLoc)

/-- An ordinary loan is live at the start of a location. -/
def LiveAt (loan : Loan) (location : Location) : Prop :=
  LoanAt info.borrowckOutFacts.borrowLiveAt loan (info.getPoint location .start)

/-- A zombie is live at the start of a location. -/
def ZombieLiveAtStart (loan : Loan) (location : Location) : Prop :=
  ZombieLiveAt info.borrowckInFacts info.borrowckOutFacts loan (info.getPoint location .start)

/-- The loan becomes a zombie at the location. -/
def BecomesZombie (loan : Loan) (location : Location) : Prop :=
  BecomesZombieAt info.borrowckInFacts info.borrowckOutFacts loan (info.getPoint location .mid)

/-- A loan is among the loans that are returned. -/
def Reported (loans? : Option (List Loan)) (loan : Loan) : Prop :=
  ∃ loans, loans? = some loans ∧ loan ∈ loans

/-- Loans die on the edges to the successors of a location when neither they nor their
zombies live on, and at the location when they die on all edges. -/
structure DieAsTheyShould (location : Location) : Prop where
  ordinary : ∀ successor ∈ info.getSuccessors location, ∀ loan,
    Reported (info.getActiveLoans location false) loan →
      (Reported (info.getLoansDyingBetween location successor false) loan ↔
        ¬ info.LiveAt loan successor ∧
          ¬ (info.ZombieLiveAtStart loan successor ∧ info.BecomesZombie loan location))
  zombie : ∀ successor ∈ info.getSuccessors location, ∀ loan,
    Reported (info.getActiveLoans location true) loan →
      (Reported (info.getLoansDyingBetween location successor true) loan ↔
        ¬ info.ZombieLiveAtStart loan successor)
  intersection : info.isReturn location = false → info.getSuccessors location ≠ [] →
    ∀ zombie loan, Reported (info.getLoansDyingAt location zombie) loan ↔
      ∀ successor ∈ info.getSuccessors location,
        Reported (info.getLoansDyingBetween location successor zombie) loan

section Reports

variable {info} {location successor : Location} {zombie : Bool} {loan : Loan}

theorem aliveAtStart_iff :
    info.aliveAtStart zombie location loan = true ↔
      LoanAt (info.getBorrowLiveAt zombie) loan (info.getPoint location .start) := by
  rw [aliveAtStart, LoanAt]
  cases (info.getBorrowLiveAt zombie).get? (info.getPoint location .start) <;> simp

theorem aliveAtStart_ordinary_iff :
    info.aliveAtStart false location loan = true ↔ info.LiveAt loan location :=
  aliveAtStart_iff

theorem aliveAtStart_zombie_iff :
    info.aliveAtStart true location loan = true ↔ info.ZombieLiveAtStart loan location :=
  aliveAtStart_iff.trans loanAt_zombieBorrowLiveAt_iff

theorem mem_becomingZombieLoans_iff :
    loan ∈ info.becomingZombieLoans location ↔ info.BecomesZombie loan location := by
  rw [BecomesZombie, ← loanAt_borrowBecomeZombieAt_iff, LoanAt, becomingZombieLoans, zombieFacts]
  cases (deriveZombieRequires info.borrowckInFacts info.borrowckOutFacts).borrowBecomeZombieAt.get?
    (info.getPoint location .mid) <;> simp

/-- An active loan dies on an edge if it neither lives on nor becomes a zombie. -/
theorem reported_getLoansDyingBetween_iff :
    Reported (info.getLoansDyingBetween location successor zombie) loan ↔
      Reported (info.getActiveLoans location zombie) loan ∧
        info.aliveAtStart zombie successor loan = false ∧
        ¬ info.BecomesZombie loan location := by
  rw [getLoansDyingBetween, ← mem_becomingZombieLoans_iff]
  cases info.getActiveLoans location zombie with
  | none => simp [Reported]
  | some active => simp [Reported, and_comm]

theorem reported_getLoansDyingAt_iff (hreturn : info.isReturn location = false) :
    Reported (info.getLoansDyingAt location zombie) loan ↔
      Reported (info.getActiveLoans location zombie) loan ∧
        (∀ successor ∈ info.getSuccessors location,
          info.aliveAtStart zombie successor loan = false) ∧
        ¬ info.BecomesZombie loan location := by
  rw [getLoansDyingAt, ← mem_becomingZombieLoans_iff]
  cases info.getActiveLoans location zombie with
  | none => simp [Reported]
  | some active => simp [Reported, hreturn, and_comm]

/-- A location keeps a loan for a successor if, whenever the loan becomes a zombie at the
location, it lives on at the successor, be it as a zombie. -/
structure KeepsZombie (info : LivenessInfo Ty) (location successor : Location) (loan : Loan) :
    Prop where
  ordinary : Reported (info.getActiveLoans location false) loan →
    info.LiveAt loan successor ∨ info.ZombieLiveAtStart loan successor
  zombie : Reported (info.getActiveLoans location true) loan → info.ZombieLiveAtStart loan successor

/-- A loan that becomes a zombie is not reported, so that it has to live on. -/
theorem keepsZombie_of_dieAsTheyShould (hdie : info.DieAsTheyShould location)
    (hsuccessor : successor ∈ info.getSuccessors location)
    (hbecomes : info.BecomesZombie loan location) :
    info.KeepsZombie location successor loan := by
  constructor
  · intro hactive
    by_contra hdead
    rw [not_or] at hdead
    have hreported := (hdie.ordinary successor hsuccessor loan hactive).mpr
      ⟨hdead.1, fun hzombie => hdead.2 hzombie.1⟩
    exact (reported_getLoansDyingBetween_iff.mp hreported).2.2 hbecomes
  · intro hactive
    by_contra hdead
    have hreported := (hdie.zombie successor hsuccessor loan hactive).mpr hdead
    exact (reported_getLoansDyingBetween_iff.mp hreported).2.2 hbecomes

theorem dieAsTheyShould_of_keepsZombie
    (hkeeps : ∀ successor ∈ info.getSuccessors location, ∀ loan,
      info.BecomesZombie loan location → info.KeepsZombie location successor loan) :
    info.DieAsTheyShould location := by
  constructor
  · intro successor hsuccessor loan hactive
    have hkept := fun hbecomes => (hkeeps successor hsuccessor loan hbecomes).ordinary hactive
    rw [reported_getLoansDyingBetween_iff, ← Bool.not_eq_true, aliveAtStart_ordinary_iff]
    tauto
  · intro successor hsuccessor loan hactive
    have hkept := fun hbecomes => (hkeeps successor hsuccessor loan hbecomes).zombie hactive
    rw [reported_getLoansDyingBetween_iff, ← Bool.not_eq_true, aliveAtStart_zombie_iff]
    tauto
  · intro hreturn hne zombie loan
    rw [reported_getLoansDyingAt_iff hreturn]
    constructor
    · rintro ⟨hactive, hdead, hbecomes⟩ successor hsuccessor
      exact reported_getLoansDyingBetween_iff.mpr ⟨hactive, hdead successor hsuccessor, hbecomes⟩
    · intro hall
      obtain ⟨first, hfirst⟩ := List.exists_mem_of_ne_nil _ hne
      have hreported := reported_getLoansDyingBetween_iff.mp (hall first hfirst)
      refine ⟨hreported.1, fun successor hsuccessor => ?_, hreported.2.2⟩
      exact (reported_getLoansDyingBetween_iff.mp (hall successor hsuccessor)).2.1

/-- Loans die as they should just when every loan that becomes a zombie at the location lives
on at all successors. -/
theorem dieAsTheyShould_iff (info : LivenessInfo Ty) (location : Location) :
    info.DieAsTheyShould location ↔
      ∀ successor ∈ info.getSuccessors location, ∀ loan, info.BecomesZombie loan location →
        info.KeepsZombie location successor loan := by
  constructor
  · intro hdie successor hsuccessor loan hbecomes
    exact keepsZombie_of_dieAsTheyShould hdie hsuccessor hbecomes
  · exact dieAsTheyShould_of_keepsZombie

end Reports

end LivenessInfo

section LeastSolution

variable (allFacts : AllInputFacts) (output : AllOutputFacts)

/-- A region outlives another one. -/
inductive Subset : Region → Region → PointIndex → Prop where
  | outlives {region region' : Region} {point : PointIndex}
      (h : (region, region', point) ∈ allFacts.outlives) : Subset region region' point
  | trans {region region' region'' : Region} {point : PointIndex}
      (hfirst : Subset region region' point) (hsecond : Subset region' region'' point) :
      Subset region region'' point
  | edge {region region' : Region} {source point : PointIndex}
      (h : Subset region region' source) (hedge : (source, point) ∈ allFacts.cfgEdge)
      (hlive : (point, region) ∈ output.originLiveOnEntry)
      (hlive' : (point, region') ∈ output.originLiveOnEntry) : Subset region region' point

/-- A region requires a loan, which is carried along edges unless it is killed. -/
inductive Requires : Region → Loan → PointIndex → Prop where
  | borrow {region : Region} {loan : Loan} {point : PointIndex}
      (h : (region, loan, point) ∈ allFacts.borrowRegion) : Requires region loan point
  | subset {region region' : Region} {loan : Loan} {point : PointIndex}
      (h : Requires region loan point) (hsubset : (point, region, region') ∈ output.subset) :
      Requires region' loan point
  | edge {region : Region} {loan : Loan} {source point : PointIndex}
      (h : Requires region loan source) (hkilled : (loan, source) ∉ allFacts.killed)
      (hedge : (source, point) ∈ allFacts.cfgEdge)
      (hlive : (point, region) ∈ output.originLiveOnEntry) : Requires region loan point

/-- The facts of the borrow checker are the least solution of its rules. -/
structure LeastSolution : Prop where
  subset_iff : ∀ region region' point, (point, region, region') ∈ output.subset ↔
    Subset allFacts output region region' point
  restricts_iff : ∀ region loan point, (point, region, loan) ∈ output.restricts ↔
    Requires allFacts output region loan point
  liveAt_iff : ∀ loan point, LoanAt output.borrowLiveAt loan point ↔
    ∃ region, Requires allFacts output region loan point ∧
      (point, region) ∈ output.originLiveOnEntry

end LeastSolution

namespace Witness

/-- A reborrow of a place that a call assigns to, used after the call but not when it
unwinds. -/
def callBody : Body Unit where
  basicBlocks := [
    ⟨[.assign (.ofLocal 2) (.ref (.ofLocal 1))],
      .call .constant [] (some (.ofLocal 1, 1)) (some 2)⟩,
    ⟨[.assign (.ofLocal 0) (.use (.copy (.ofLocal 2)))], .return⟩, ⟨[], .resume⟩]
  localDecls := [(), (), ()]
  argCount := 1
  startBlock_lt := by decide
  argCount_lt := by decide
  target_lt := by decide

def pointIndex (point : Point) : PointIndex :=
  2 * (2 * point.location.block + point.location.statementIndex) +
    match point.typ with
    | .start => 0
    | .mid => 1

/-- The call kills the loan `0` of the region `0`. -/
def callFacts : AllInputFacts where
  borrowRegion := [(0, 0, 1)]
  cfgEdge := [(0, 1), (1, 2), (2, 3), (3, 4), (3, 8), (4, 5), (5, 6), (6, 7), (8, 9)]
  killed := [(0, 3)]
  outlives := []

def callOutput : AllOutputFacts where
  restricts := [(1, 0, 0), (2, 0, 0), (3, 0, 0)]
  subset := []
  originLiveOnEntry := [(2, 0), (3, 0), (4, 0), (5, 0)]
  borrowLiveAt := groupByPoint [(0, 2), (0, 3)]

def callInfo : LivenessInfo Unit := ⟨callBody, callFacts, callOutput, pointIndex⟩

theorem callOutput_subset (region region' : Region) (point : PointIndex) :
    ¬ Subset callFacts callOutput region region' point := by
  intro h
  induction h with
  | outlives h => nomatch h
  | trans _ _ ih _ => exact ih
  | edge _ _ _ _ ih => exact ih

theorem callOutput_requires_iff (region : Region) (loan : Loan) (point : PointIndex) :
    Requires callFacts callOutput region loan point ↔
      (point, region, loan) ∈ callOutput.restricts := by
  have hfirst : Requires callFacts callOutput 0 0 1 := .borrow (by decide)
  have hsecond : Requires callFacts callOutput 0 0 2 :=
    .edge hfirst (by decide) (by decide) (by decide)
  have hthird : Requires callFacts callOutput 0 0 3 :=
    .edge hsecond (by decide) (by decide) (by decide)
  constructor
  · intro h
    induction h with
    | borrow h =>
      have hall : ∀ borrowed ∈ callFacts.borrowRegion,
          (borrowed.2.2, borrowed.1, borrowed.2.1) ∈ callOutput.restricts := by decide
      exact hall _ h
    | subset _ hsubset => nomatch hsubset
    | edge _ hkilled hedge _ ih =>
      have hall : ∀ required ∈ callOutput.restricts, ∀ edge ∈ callFacts.cfgEdge,
          edge.1 = required.1 → (required.2.2, required.1) ∉ callFacts.killed →
            (edge.2, required.2.1, required.2.2) ∈ callOutput.restricts := by decide
      exact hall _ ih _ hedge rfl hkilled
  · intro h
    simp only [callOutput, List.mem_cons, List.not_mem_nil, or_false, Prod.mk.injEq] at h
    rcases h with ⟨rfl, rfl, rfl⟩ | ⟨rfl, rfl, rfl⟩ | ⟨rfl, rfl, rfl⟩
    · exact hfirst
    · exact hsecond
    · exact hthird

theorem callOutput_leastSolution : LeastSolution callFacts callOutput where
  subset_iff region region' point :=
    iff_of_false (fun h => nomatch h) (callOutput_subset region region' point)
  restricts_iff region loan point := (callOutput_requires_iff region loan point).symm
  liveAt_iff loan point := by
    simp only [callOutput_requires_iff]
    refine loanAt_groupByPoint_iff.trans ⟨?_, ?_⟩
    · intro h
      simp only [List.mem_cons, List.not_mem_nil, or_false, Prod.mk.injEq] at h
      rcases h with ⟨rfl, rfl⟩ | ⟨rfl, rfl⟩
      · exact ⟨0, by decide, by decide⟩
      · exact ⟨0, by decide, by decide⟩
    · rintro ⟨region, hrequired, hlive⟩
      have hall : ∀ required ∈ callOutput.restricts,
          (required.1, required.2.1) ∈ callOutput.originLiveOnEntry →
            (required.2.2, required.1) ∈ [(0, 2), (0, 3)] := by decide
      exact hall _ hrequired hlive

/-- The loan is active at the call and dead when it unwinds, and is not reported. -/
theorem callInfo_not_dieAsTheyShould :
    LeastSolution callInfo.borrowckInFacts callInfo.borrowckOutFacts ∧
      ¬ callInfo.DieAsTheyShould ⟨0, 1⟩ := by
  refine ⟨callOutput_leastSolution, fun hdie => ?_⟩
  have hactive : LivenessInfo.Reported (callInfo.getActiveLoans ⟨0, 1⟩ false) 0 :=
    ⟨[0], by decide, by decide⟩
  have hbecomes : callInfo.BecomesZombie 0 ⟨0, 1⟩ :=
    ⟨0, 4, by decide, by decide, by decide, by decide⟩
  have hsuccessor : (⟨2, 0⟩ : Location) ∈ callInfo.getSuccessors ⟨0, 1⟩ := by decide
  have hkept := LivenessInfo.keepsZombie_of_dieAsTheyShould hdie hsuccessor hbecomes
  rcases hkept.ordinary hactive with hlive | ⟨region, -, hlive⟩
  · exact absurd (loanAt_groupByPoint_iff.mp hlive) (by decide)
  · have hall : ∀ live ∈ callOutput.originLiveOnEntry, live.1 ≠ 8 := by decide
    exact hall _ hlive rfl

end Witness

end Prusti.Borrowck

/-
The facts about zombie loans, which are killed while an origin that requires them is
still live.
-/
import Prusti.Borrowck.Facts
import Prusti.Lib.HashMap
import Prusti.Lib.Saturation

namespace Prusti.Borrowck

open Prusti.Lib

variable {region : Region} {loan : Loan} {point : PointIndex}

/-- The facts that the borrow checker starts from. -/
structure AllInputFacts where
  borrowRegion : List (Region × Loan × PointIndex)
  cfgEdge : List (PointIndex × PointIndex)
  killed : List (Loan × PointIndex)
  outlives : List (Region × Region × PointIndex)

/-- The facts that the borrow checker derives.  All but the live loans are given by the
entries of the maps. -/
structure AllOutputFacts where
  restricts : List (PointIndex × Region × Loan)
  subset : List (PointIndex × Region × Region)
  originLiveOnEntry : List (PointIndex × Region)
  borrowLiveAt : HashMap PointIndex (List Loan)

/-- Collect the loans of every point. -/
def groupByPoint (elements : List (Loan × PointIndex)) : HashMap PointIndex (List Loan) :=
  elements.foldl (fun map element =>
    map.insert element.2 ((map.get? element.2).getD [] ++ [element.1])) HashMap.empty

section Rules

variable (allFacts : AllInputFacts) (output : AllOutputFacts)

/-- The killed loans with the regions that require them. -/
def killedRequires : List (PointIndex × Region × Loan) :=
  output.restricts.filter fun required => (required.2.2, required.1) ∈ allFacts.killed

/-- The edges from a point to those where a region is live. -/
def liveEdges (region : Region) (point : PointIndex) : List (PointIndex × PointIndex) :=
  allFacts.cfgEdge.filter fun edge =>
    edge.1 = point ∧ (edge.2, region) ∈ output.originLiveOnEntry

/-- A killed loan becomes a zombie where an edge leads to. -/
def zombieRequiresKilled : List (Region × Loan × PointIndex) :=
  (killedRequires allFacts output).flatMap fun required =>
    (liveEdges allFacts output required.2.1 required.1).map fun edge =>
      (required.2.1, required.2.2, edge.2)

def zombieRequiresSubset (zombieRequires : List (Region × Loan × PointIndex)) :
    List (Region × Loan × PointIndex) :=
  zombieRequires.flatMap fun zombie =>
    (output.subset.filter fun related =>
      related.1 = zombie.2.2 ∧ related.2.1 = zombie.1).map fun related =>
        (related.2.2, zombie.2.1, zombie.2.2)

def zombieRequiresEdge (zombieRequires : List (Region × Loan × PointIndex)) :
    List (Region × Loan × PointIndex) :=
  zombieRequires.flatMap fun zombie =>
    (liveEdges allFacts output zombie.1 zombie.2.2).map fun edge =>
      (zombie.1, zombie.2.1, edge.2)

/-- All regions, loans and points that the rules can put together. -/
def zombieRequiresBound : List (Region × Loan × PointIndex) :=
  (output.restricts.map (fun required => required.2.1) ++
      output.subset.map fun related => related.2.2) ×ˢ
    (output.restricts.map (fun required => required.2.2) ×ˢ allFacts.cfgEdge.map Prod.snd)

variable {allFacts output}

theorem mem_killedRequires_iff :
    (point, region, loan) ∈ killedRequires allFacts output ↔
      (point, region, loan) ∈ output.restricts ∧ (loan, point) ∈ allFacts.killed := by
  rw [killedRequires, List.mem_filter, decide_eq_true_iff]

theorem mem_liveEdges_iff {source target : PointIndex} :
    (source, target) ∈ liveEdges allFacts output region point ↔
      source = point ∧ (point, target) ∈ allFacts.cfgEdge ∧
        (target, region) ∈ output.originLiveOnEntry := by
  rw [liveEdges, List.mem_filter, decide_eq_true_iff]
  constructor
  · rintro ⟨hedge, rfl, hlive⟩
    exact ⟨rfl, hedge, hlive⟩
  · rintro ⟨rfl, hedge, hlive⟩
    exact ⟨hedge, rfl, hlive⟩

theorem mem_zombieRequiresKilled_iff :
    (region, loan, point) ∈ zombieRequiresKilled allFacts output ↔
      ∃ source, (source, region, loan) ∈ output.restricts ∧ (loan, source) ∈ allFacts.killed ∧
        (source, point) ∈ allFacts.cfgEdge ∧ (point, region) ∈ output.originLiveOnEntry := by
  rw [zombieRequiresKilled, List.mem_flatMap]
  constructor
  · rintro ⟨⟨source, region, loan⟩, hrequired, hzombie⟩
    obtain ⟨⟨from', target⟩, hedge, heq⟩ := List.mem_map.mp hzombie
    simp only [Prod.mk.injEq] at heq
    obtain ⟨rfl, rfl, rfl⟩ := heq
    obtain ⟨hrestricts, hkilled⟩ := mem_killedRequires_iff.mp hrequired
    exact ⟨source, hrestricts, hkilled, (mem_liveEdges_iff.mp hedge).2⟩
  · rintro ⟨source, hrestricts, hkilled, hedge, hlive⟩
    refine ⟨(source, region, loan), mem_killedRequires_iff.mpr ⟨hrestricts, hkilled⟩, ?_⟩
    exact List.mem_map.mpr ⟨(source, point), mem_liveEdges_iff.mpr ⟨rfl, hedge, hlive⟩, rfl⟩

theorem mem_zombieRequiresSubset_iff {zombieRequires : List (Region × Loan × PointIndex)} :
    (region, loan, point) ∈ zombieRequiresSubset output zombieRequires ↔
      ∃ region', (region', loan, point) ∈ zombieRequires ∧
        (point, region', region) ∈ output.subset := by
  rw [zombieRequiresSubset, List.mem_flatMap]
  constructor
  · rintro ⟨⟨region', loan, point⟩, hzombie, hmem⟩
    obtain ⟨⟨point', first, second⟩, hrelated, heq⟩ := List.mem_map.mp hmem
    obtain ⟨hsubset, hsame⟩ := List.mem_filter.mp hrelated
    obtain ⟨hpoint, hfirst⟩ := of_decide_eq_true hsame
    simp only [Prod.mk.injEq] at hpoint hfirst heq
    subst hpoint hfirst
    obtain ⟨rfl, rfl, rfl⟩ := heq
    exact ⟨_, hzombie, hsubset⟩
  · rintro ⟨region', hzombie, hsubset⟩
    refine ⟨_, hzombie, List.mem_map.mpr ⟨_, List.mem_filter.mpr ⟨hsubset, ?_⟩, rfl⟩⟩
    exact decide_eq_true ⟨rfl, rfl⟩

theorem mem_zombieRequiresEdge_iff {zombieRequires : List (Region × Loan × PointIndex)} :
    (region, loan, point) ∈ zombieRequiresEdge allFacts output zombieRequires ↔
      ∃ source, (region, loan, source) ∈ zombieRequires ∧
        (source, point) ∈ allFacts.cfgEdge ∧ (point, region) ∈ output.originLiveOnEntry := by
  rw [zombieRequiresEdge, List.mem_flatMap]
  constructor
  · rintro ⟨⟨region, loan, source⟩, hzombie, hmem⟩
    obtain ⟨⟨from', target⟩, hedge, heq⟩ := List.mem_map.mp hmem
    simp only [Prod.mk.injEq] at heq
    obtain ⟨rfl, rfl, rfl⟩ := heq
    exact ⟨source, hzombie, (mem_liveEdges_iff.mp hedge).2⟩
  · rintro ⟨source, hzombie, hedge, hlive⟩
    exact ⟨_, hzombie,
      List.mem_map.mpr ⟨(source, point), mem_liveEdges_iff.mpr ⟨rfl, hedge, hlive⟩, rfl⟩⟩

theorem mem_zombieRequiresBound_iff :
    (region, loan, point) ∈ zombieRequiresBound allFacts output ↔
      ((∃ required ∈ output.restricts, required.2.1 = region) ∨
        ∃ related ∈ output.subset, related.2.2 = region) ∧
      (∃ required ∈ output.restricts, required.2.2 = loan) ∧
      ∃ edge ∈ allFacts.cfgEdge, edge.2 = point := by
  simp only [zombieRequiresBound, List.mem_product, List.mem_append, List.mem_map]

variable (allFacts output)

/-- The rules for the zombies that regions require. -/
def zombieRules : Rules (Region × Loan × PointIndex) where
  derive zombieRequires := zombieRequiresKilled allFacts output ++
    (zombieRequiresSubset output zombieRequires ++
      zombieRequiresEdge allFacts output zombieRequires)
  bound := zombieRequiresBound allFacts output
  derive_subset := by
    rintro zombieRequires hbound ⟨region, loan, point⟩ hmem
    rw [List.mem_append, List.mem_append] at hmem
    rw [mem_zombieRequiresBound_iff]
    rcases hmem with hmem | hmem | hmem
    · obtain ⟨source, hrestricts, -, hedge, -⟩ := mem_zombieRequiresKilled_iff.mp hmem
      exact ⟨.inl ⟨_, hrestricts, rfl⟩, ⟨_, hrestricts, rfl⟩, _, hedge, rfl⟩
    · obtain ⟨region', hzombie, hsubset⟩ := mem_zombieRequiresSubset_iff.mp hmem
      exact ⟨.inr ⟨_, hsubset, rfl⟩, (mem_zombieRequiresBound_iff.mp (hbound hzombie)).2⟩
    · obtain ⟨source, hzombie, hedge, -⟩ := mem_zombieRequiresEdge_iff.mp hmem
      have hold := mem_zombieRequiresBound_iff.mp (hbound hzombie)
      exact ⟨hold.1, hold.2.1, _, hedge, rfl⟩

/-- The facts that are derived about zombie loans. -/
structure ZombieFacts where
  zombieRequires : List (PointIndex × Region × Loan)
  zombieBorrowLiveAt : HashMap PointIndex (List Loan)
  borrowBecomeZombieAt : HashMap PointIndex (List Loan)

/-- Derive the facts about zombies. -/
def deriveZombieRequires : ZombieFacts :=
  let zombieRequires := (zombieRules allFacts output).saturate
  let zombieBorrowLiveAt := (zombieRequires.filter fun zombie =>
    (zombie.2.2, zombie.1) ∈ output.originLiveOnEntry).map fun zombie =>
      (zombie.2.1, zombie.2.2)
  let borrowBecomeZombieAt := ((killedRequires allFacts output).filter fun required =>
    liveEdges allFacts output required.2.1 required.1 ≠ []).map fun required =>
      (required.2.2, required.1)
  { zombieRequires := zombieRequires.map fun zombie => (zombie.2.2, zombie.1, zombie.2.1)
    -- a loan is listed once at a point
    zombieBorrowLiveAt := groupByPoint zombieBorrowLiveAt.dedup
    borrowBecomeZombieAt := groupByPoint borrowBecomeZombieAt.dedup }

end Rules

section Meaning

variable (allFacts : AllInputFacts) (output : AllOutputFacts)

/-- A region requires a loan that was killed. -/
inductive ZombieRequires : Region → Loan → PointIndex → Prop where
  | killed {region : Region} {loan : Loan} {source point : PointIndex}
      (hrestricts : (source, region, loan) ∈ output.restricts)
      (hkilled : (loan, source) ∈ allFacts.killed)
      (hedge : (source, point) ∈ allFacts.cfgEdge)
      (hlive : (point, region) ∈ output.originLiveOnEntry) : ZombieRequires region loan point
  | subset {region region' : Region} {loan : Loan} {point : PointIndex}
      (hzombie : ZombieRequires region loan point)
      (hsubset : (point, region, region') ∈ output.subset) : ZombieRequires region' loan point
  | edge {region : Region} {loan : Loan} {source point : PointIndex}
      (hzombie : ZombieRequires region loan source)
      (hedge : (source, point) ∈ allFacts.cfgEdge)
      (hlive : (point, region) ∈ output.originLiveOnEntry) : ZombieRequires region loan point

/-- A zombie is live where a live region requires it. -/
def ZombieLiveAt (loan : Loan) (point : PointIndex) : Prop :=
  ∃ region, ZombieRequires allFacts output region loan point ∧
    (point, region) ∈ output.originLiveOnEntry

/-- A loan becomes a zombie where it is killed while a region requires it that is live
next. -/
def BecomesZombieAt (loan : Loan) (point : PointIndex) : Prop :=
  ∃ region next, (point, region, loan) ∈ output.restricts ∧ (loan, point) ∈ allFacts.killed ∧
    (point, next) ∈ allFacts.cfgEdge ∧ (next, region) ∈ output.originLiveOnEntry

variable {allFacts output}

/-- The rules derive just the zombies that regions require. -/
theorem mem_saturate_zombieRules_iff :
    (region, loan, point) ∈ (zombieRules allFacts output).saturate ↔
      ZombieRequires allFacts output region loan point := by
  constructor
  · intro h
    refine (zombieRules allFacts output).saturate_induction (motive := fun zombie =>
      ZombieRequires allFacts output zombie.1 zombie.2.1 zombie.2.2) ?_ _ h
    rintro zombies hzombies ⟨region, loan, point⟩ hmem
    rcases List.mem_append.mp hmem with hmem | hmem
    · obtain ⟨source, hrestricts, hkilled, hedge, hlive⟩ := mem_zombieRequiresKilled_iff.mp hmem
      exact .killed hrestricts hkilled hedge hlive
    · rcases List.mem_append.mp hmem with hmem | hmem
      · obtain ⟨region', hzombie, hsubset⟩ := mem_zombieRequiresSubset_iff.mp hmem
        exact .subset (hzombies (region', loan, point) hzombie) hsubset
      · obtain ⟨source, hzombie, hedge, hlive⟩ := mem_zombieRequiresEdge_iff.mp hmem
        exact .edge (hzombies (region, loan, source) hzombie) hedge hlive
  · intro h
    induction h with
    | killed hrestricts hkilled hedge hlive =>
      apply Rules.derive_saturate
      exact List.mem_append_left _
        (mem_zombieRequiresKilled_iff.mpr ⟨_, hrestricts, hkilled, hedge, hlive⟩)
    | subset _ hsubset ih =>
      apply Rules.derive_saturate
      exact List.mem_append_right _ (List.mem_append_left _
        (mem_zombieRequiresSubset_iff.mpr ⟨_, ih, hsubset⟩))
    | edge _ hedge hlive ih =>
      apply Rules.derive_saturate
      exact List.mem_append_right _ (List.mem_append_right _
        (mem_zombieRequiresEdge_iff.mpr ⟨_, ih, hedge, hlive⟩))

/-- The loans of a point in a map from points to loans. -/
def LoanAt (map : HashMap PointIndex (List Loan)) (loan : Loan) (point : PointIndex) : Prop :=
  ∃ loans, map.get? point = some loans ∧ loan ∈ loans

theorem loanAt_groupByPoint_iff {elements : List (Loan × PointIndex)} :
    LoanAt (groupByPoint elements) loan point ↔ (loan, point) ∈ elements := by
  suffices h : ∀ map : HashMap PointIndex (List Loan),
      LoanAt (elements.foldl (fun map element => map.insert element.2
        ((map.get? element.2).getD [] ++ [element.1])) map) loan point ↔
      (loan, point) ∈ elements ∨ LoanAt map loan point by
    refine (h HashMap.empty).trans (or_iff_left ?_)
    rintro ⟨loans, hloans, -⟩
    nomatch hloans
  induction elements with
  | nil => exact fun map => by simp
  | cons element elements ih =>
    intro map
    rw [List.foldl_cons, ih, List.mem_cons]
    have hinsert : LoanAt (map.insert element.2
        ((map.get? element.2).getD [] ++ [element.1])) loan point ↔
        (loan, point) = element ∨ LoanAt map loan point := by
      obtain ⟨loan', point'⟩ := element
      rw [LoanAt, LoanAt, HashMap.get?_insert]
      by_cases hpoint : point' = point
      · subst hpoint
        cases hget : map.get? point' <;> simp [or_comm]
      · simp [hpoint, Ne.symm hpoint]
    rw [hinsert]
    tauto

theorem loanAt_zombieBorrowLiveAt_iff :
    LoanAt (deriveZombieRequires allFacts output).zombieBorrowLiveAt loan point ↔
      ZombieLiveAt allFacts output loan point := by
  refine loanAt_groupByPoint_iff.trans ?_
  rw [List.mem_dedup, List.mem_map, ZombieLiveAt]
  constructor
  · rintro ⟨⟨region, loan, point⟩, hmem, heq⟩
    obtain ⟨rfl, rfl⟩ := Prod.mk.inj heq
    obtain ⟨hzombie, hlive⟩ := List.mem_filter.mp hmem
    exact ⟨region, mem_saturate_zombieRules_iff.mp hzombie, of_decide_eq_true hlive⟩
  · rintro ⟨region, hzombie, hlive⟩
    exact ⟨_, List.mem_filter.mpr ⟨mem_saturate_zombieRules_iff.mpr hzombie,
      decide_eq_true hlive⟩, rfl⟩

theorem loanAt_borrowBecomeZombieAt_iff :
    LoanAt (deriveZombieRequires allFacts output).borrowBecomeZombieAt loan point ↔
      BecomesZombieAt allFacts output loan point := by
  refine loanAt_groupByPoint_iff.trans ?_
  rw [List.mem_dedup, List.mem_map, BecomesZombieAt]
  constructor
  · rintro ⟨⟨point, region, loan⟩, hmem, heq⟩
    obtain ⟨rfl, rfl⟩ := Prod.mk.inj heq
    obtain ⟨hrequired, hedges⟩ := List.mem_filter.mp hmem
    obtain ⟨hrestricts, hkilled⟩ := mem_killedRequires_iff.mp hrequired
    obtain ⟨⟨source, next⟩, hedge⟩ := List.exists_mem_of_ne_nil _ (of_decide_eq_true hedges)
    obtain ⟨-, hedge, hlive⟩ := mem_liveEdges_iff.mp hedge
    exact ⟨region, next, hrestricts, hkilled, hedge, hlive⟩
  · rintro ⟨region, next, hrestricts, hkilled, hedge, hlive⟩
    refine ⟨_, List.mem_filter.mpr ⟨mem_killedRequires_iff.mpr ⟨hrestricts, hkilled⟩, ?_⟩, rfl⟩
    exact decide_eq_true (List.ne_nil_of_mem (mem_liveEdges_iff.mpr ⟨rfl, hedge, hlive⟩))

end Meaning

end Prusti.Borrowck

/-
The places that a loop accesses, and the leaves among them: the places to which the loop
invariant has to give permissions.
-/
import Prusti.Analysis.PlaceForest

namespace Prusti.LoopInvariant

open Prusti.Mir Prusti.Analysis

universe u

inductive PlaceAccessKind where
  /-- The place is assigned to. -/
  | store
  /-- The place is read. -/
  | read
  /-- The place is moved (destructive read). -/
  | move
  /-- The place is borrowed immutably. -/
  | sharedBorrow
  /-- The place is borrowed mutably. -/
  | mutableBorrow
deriving DecidableEq, Repr

/-- Does the access write to the path? -/
def PlaceAccessKind.isWriteAccess : PlaceAccessKind → Bool
  | store | move => true
  | read | mutableBorrow | sharedBorrow => false

inductive MutatingUseContext where
  | store | llvmAsmOutput | call | yield | drop | borrow | addressOf | projection | retag
deriving DecidableEq, Repr

inductive NonMutatingUseContext where
  | inspect | copy | move | sharedBorrow | shallowBorrow | uniqueBorrow | addressOf
  | projection
deriving DecidableEq, Repr

/-- How a place occurs in a body. -/
inductive PlaceContext where
  | mutatingUse (context : MutatingUseContext)
  | nonMutatingUse (context : NonMutatingUseContext)
  | nonUse
deriving DecidableEq, Repr

namespace PlaceContext

def isUse : PlaceContext → Bool
  | nonUse => false
  | _ => true

/-- `none` stands for the uses that are not implemented. -/
def accessKind : PlaceContext → Option PlaceAccessKind
  | mutatingUse .store | mutatingUse .call => some .store
  | mutatingUse .borrow => some .mutableBorrow
  | mutatingUse .drop => some .move
  | nonMutatingUse .copy | nonMutatingUse .inspect => some .read
  | nonMutatingUse .move => some .move
  | nonMutatingUse .sharedBorrow => some .sharedBorrow
  | _ => none

end PlaceContext

variable {Ty : Type u}

/-- A place access inside a loop. -/
structure PlaceAccess (Ty : Type u) where
  location : Location
  place : Place Ty
  kind : PlaceAccessKind

/-- An occurrence of a place that the visitor of the compiler shows to the collector. -/
structure PlaceVisit (Ty : Type u) where
  place : Place Ty
  context : PlaceContext
  location : Location

/-- The collector keeps the uses inside of the loop body. -/
def visitPlace (loopBody : List BasicBlock) (accessedPlaces : List (PlaceAccess Ty))
    (visit : PlaceVisit Ty) : Option (List (PlaceAccess Ty)) :=
  if visit.location.block ∈ loopBody ∧ visit.context.isUse then
    visit.context.accessKind.map fun kind =>
      accessedPlaces ++ [⟨visit.location, visit.place, kind⟩]
  else some accessedPlaces

/-- The paths that are accessed inside the loop, from the occurrences of places in the
body. -/
def computeUsedPaths (loopBody : List BasicBlock) (visits : List (PlaceVisit Ty)) :
    Option (List (PlaceAccess Ty)) :=
  visits.foldlM (visitPlace loopBody) []

/-- An accessed place with the kind of the access. -/
abbrev AccessPair (Ty : Type u) := Place Ty × PlaceAccessKind

section Accessed

variable {pairs : List (AccessPair Ty)} {chosen shadows : PlaceAccessKind → Bool}
  {place : Place Ty}

/-- Some access of the kinds is made to the place. -/
def Accessed (pairs : List (AccessPair Ty)) (kinds : PlaceAccessKind → Bool)
    (place : Place Ty) : Prop :=
  ∃ kind, (place, kind) ∈ pairs ∧ kinds kind = true

theorem Accessed.mono {kinds : PlaceAccessKind → Bool} (h : Accessed pairs chosen place)
    (himp : ∀ kind, chosen kind = true → kinds kind = true) : Accessed pairs kinds place := by
  obtain ⟨kind, hmem, hkind⟩ := h
  exact ⟨kind, hmem, himp kind hkind⟩

/-- Above every accessed place there is a topmost one. -/
theorem exists_topmost (h : Accessed pairs shadows place) :
    ∃ top ≤ place, Accessed pairs shadows top ∧
      ∀ above, Accessed pairs shadows above → ¬ above < top := by
  induction hlength : place.projection.length using Nat.strong_induction_on generalizing place with
  | _ length ih =>
    subst hlength
    by_cases htop : ∀ above, Accessed pairs shadows above → ¬ above < place
    · exact ⟨place, le_rfl, h, htop⟩
    · push Not at htop
      obtain ⟨above, habove, hlt⟩ := htop
      obtain ⟨top, hle, htop⟩ := ih _ (length_lt_of_lt hlt) habove rfl
      exact ⟨top, hle.trans hlt.le, htop⟩

end Accessed

/-- The paths to whose leaves we need write permissions, those that are the roots of trees
to which we need write permissions, and those to whose leaves we need read permissions. -/
structure Leaves (Ty : Type u) where
  writeLeaves : List (Place Ty)
  mutBorrowLeaves : List (Place Ty)
  readLeaves : List (Place Ty)

section Leaves

variable [DecidableEq Ty]

/-- A use of a place below a definitely initialised one, or a store to a place of which
some part is definitely initialised. -/
def isInitialisedAccess (paths : Finset (Place Ty)) (access : AccessPair Ty) : Bool :=
  decide (∃ initialisedPlace ∈ paths, isPrefix access.1 initialisedPlace = true ∨
    (access.2 = .store ∧ isPrefix initialisedPlace access.1 = true))

def accessPairs (accesses : List (PlaceAccess Ty))
    (definitelyInitialisedPaths : Option (Finset (Place Ty))) : List (AccessPair Ty) :=
  let pairs := accesses.map fun access => (access.place, access.kind)
  match definitelyInitialisedPaths with
  | some paths => pairs.filter (isInitialisedAccess paths)
  | none => pairs

/-- Another access of some kinds is made to a place above. -/
def hasPrefix (pairs : List (AccessPair Ty)) (shadows : PlaceAccessKind → Bool)
    (place : Place Ty) : Bool :=
  pairs.any fun access =>
    shadows access.2 && decide (place ≠ access.1) && isPrefix place access.1

/-- One of the three passes: the places of the chosen accesses that lie below no access of
the shadowing kinds, less those that are taken already. -/
def collectLeaves (pairs : List (AccessPair Ty)) (chosen shadows : PlaceAccessKind → Bool)
    (taken : List (Place Ty)) : List (Place Ty) :=
  pairs.foldl
    (fun leaves access =>
      if chosen access.2 && !hasPrefix pairs shadows access.1 &&
          decide (access.1 ∉ leaves) && decide (access.1 ∉ taken) then
        leaves ++ [access.1]
      else leaves)
    []

def computeWriteLeaves (pairs : List (AccessPair Ty)) : List (Place Ty) :=
  collectLeaves pairs (·.isWriteAccess) (·.isWriteAccess) []

def computeMutBorrowLeaves (pairs : List (AccessPair Ty)) (writeLeaves : List (Place Ty)) :
    List (Place Ty) :=
  collectLeaves pairs (· = .mutableBorrow)
    (fun kind => kind.isWriteAccess || kind = .mutableBorrow) writeLeaves

def computeReadLeaves (pairs : List (AccessPair Ty))
    (writeLeaves mutBorrowLeaves : List (Place Ty)) : List (Place Ty) :=
  collectLeaves pairs (fun kind => !kind.isWriteAccess) (fun _ => true)
    (writeLeaves ++ mutBorrowLeaves)

/-- The leaves of the accesses that pass the filter. -/
def leavesOf (pairs : List (AccessPair Ty)) : Leaves Ty :=
  let writeLeaves := computeWriteLeaves pairs
  let mutBorrowLeaves := computeMutBorrowLeaves pairs writeLeaves
  ⟨writeLeaves, mutBorrowLeaves, computeReadLeaves pairs writeLeaves mutBorrowLeaves⟩

/-- If some paths are known to be definitely initialised, only the leaves that are
definitely initialised. -/
def computeReadAndWriteLeaves (loopBody : List BasicBlock) (visits : List (PlaceVisit Ty))
    (definitelyInitialisedPaths : Option (Finset (Place Ty))) : Option (Leaves Ty) :=
  (computeUsedPaths loopBody visits).map fun accesses =>
    leavesOf (accessPairs accesses definitelyInitialisedPaths)

variable {pairs : List (AccessPair Ty)} {chosen shadows : PlaceAccessKind → Bool}
  {taken : List (Place Ty)} {place : Place Ty}

theorem hasPrefix_iff :
    hasPrefix pairs shadows place = true ↔
      ∃ above, Accessed pairs shadows above ∧ above < place := by
  simp only [hasPrefix, List.any_eq_true, Bool.and_eq_true, decide_eq_true_iff, isPrefix_iff]
  constructor
  · rintro ⟨⟨above, kind⟩, hmem, ⟨hkind, hne⟩, hle⟩
    exact ⟨above, ⟨kind, hmem, hkind⟩, lt_of_le_of_ne hle (Ne.symm hne)⟩
  · rintro ⟨above, ⟨kind, hmem, hkind⟩, hlt⟩
    exact ⟨(above, kind), hmem, ⟨hkind, hlt.ne'⟩, hlt.le⟩

/-- What a pass collects. -/
theorem mem_collectLeaves_iff :
    place ∈ collectLeaves pairs chosen shadows taken ↔
      Accessed pairs chosen place ∧ (∀ above, Accessed pairs shadows above → ¬ above < place) ∧
        place ∉ taken := by
  have hloop : ∀ (rest : List (AccessPair Ty)) (leaves : List (Place Ty)),
      place ∈ rest.foldl (fun leaves access =>
        if chosen access.2 && !hasPrefix pairs shadows access.1 &&
            decide (access.1 ∉ leaves) && decide (access.1 ∉ taken) then
          leaves ++ [access.1]
        else leaves) leaves ↔
      place ∈ leaves ∨ (Accessed rest chosen place ∧ hasPrefix pairs shadows place = false ∧
        place ∉ taken) := by
    intro rest
    induction rest with
    | nil => simp [Accessed]
    | cons access rest ih =>
      intro leaves
      obtain ⟨first, kind⟩ := access
      have haccessed : Accessed ((first, kind) :: rest) chosen place ↔
          (place = first ∧ chosen kind = true) ∨ Accessed rest chosen place := by
        simp only [Accessed, List.mem_cons, Prod.mk.injEq]
        constructor
        · rintro ⟨k, (⟨rfl, rfl⟩ | hmem), hk⟩
          · exact .inl ⟨rfl, hk⟩
          · exact .inr ⟨k, hmem, hk⟩
        · rintro (⟨rfl, hk⟩ | ⟨k, hmem, hk⟩)
          · exact ⟨kind, .inl ⟨rfl, rfl⟩, hk⟩
          · exact ⟨k, .inr hmem, hk⟩
      rw [List.foldl_cons, ih, haccessed]
      by_cases hfirst : place = first
      · subst hfirst
        simp only [Bool.and_eq_true, Bool.not_eq_true', decide_eq_true_iff, true_and]
        split
        · next hnew =>
            simp only [List.mem_append, List.mem_singleton, or_true, true_or, true_iff]
            exact .inr ⟨.inl hnew.1.1.1, hnew.1.1.2, hnew.2⟩
        · next hold =>
            constructor
            · rintro (h | ⟨h, h', h''⟩)
              · exact .inl h
              · exact .inr ⟨.inr h, h', h''⟩
            · rintro (h | ⟨hkind | h, h', h''⟩)
              · exact .inl h
              · by_cases hmem : place ∈ leaves
                · exact .inl hmem
                · exact absurd ⟨⟨⟨hkind, h'⟩, hmem⟩, h''⟩ hold
              · exact .inr ⟨h, h', h''⟩
      · have hmem : place ∈ (if (chosen kind && !hasPrefix pairs shadows first &&
            decide (first ∉ leaves) && decide (first ∉ taken)) = true then
            leaves ++ [first] else leaves) ↔ place ∈ leaves := by
          split
          · simp [hfirst]
          · exact Iff.rfl
        rw [hmem]
        simp [hfirst]
  rw [collectLeaves, hloop, ← Bool.not_eq_true, hasPrefix_iff]
  simp

theorem nodup_collectLeaves : (collectLeaves pairs chosen shadows taken).Nodup := by
  have hloop : ∀ (rest : List (AccessPair Ty)) (leaves : List (Place Ty)), leaves.Nodup →
      (rest.foldl (fun leaves access =>
        if chosen access.2 && !hasPrefix pairs shadows access.1 &&
            decide (access.1 ∉ leaves) && decide (access.1 ∉ taken) then
          leaves ++ [access.1]
        else leaves) leaves).Nodup := by
    intro rest
    induction rest with
    | nil => exact fun _ h => h
    | cons access rest ih =>
      intro leaves h
      rw [List.foldl_cons]
      apply ih
      split
      · next hnew =>
          simp only [Bool.and_eq_true, decide_eq_true_iff] at hnew
          rw [← List.concat_eq_append]
          exact h.concat hnew.1.2
      · exact h
  exact hloop pairs [] List.nodup_nil

/-- A mutable borrow or a write. -/
def PlaceAccessKind.isMutAccess (kind : PlaceAccessKind) : Bool :=
  kind.isWriteAccess || kind = .mutableBorrow

theorem PlaceAccessKind.isMutAccess_of_isWriteAccess {kind : PlaceAccessKind}
    (h : kind.isWriteAccess = true) : kind.isMutAccess = true := by
  rw [isMutAccess, h, Bool.true_or]

theorem mem_writeLeaves_iff :
    place ∈ (leavesOf pairs).writeLeaves ↔ Accessed pairs (·.isWriteAccess) place ∧
      ∀ above, Accessed pairs (·.isWriteAccess) above → ¬ above < place := by
  change place ∈ computeWriteLeaves pairs ↔ _
  rw [computeWriteLeaves, mem_collectLeaves_iff]
  simp

theorem mem_mutBorrowLeaves_iff :
    place ∈ (leavesOf pairs).mutBorrowLeaves ↔
      Accessed pairs (·.isMutAccess) place ∧ ¬ Accessed pairs (·.isWriteAccess) place ∧
        ∀ above, Accessed pairs (·.isMutAccess) above → ¬ above < place := by
  change place ∈ computeMutBorrowLeaves pairs (leavesOf pairs).writeLeaves ↔ _
  rw [computeMutBorrowLeaves, mem_collectLeaves_iff, mem_writeLeaves_iff]
  constructor
  · rintro ⟨haccess, htop, hnot⟩
    refine ⟨haccess.mono fun kind hkind => ?_, fun hwrite => hnot ⟨hwrite, ?_⟩, htop⟩
    · exact Bool.or_eq_true_iff.mpr (.inr hkind)
    · exact fun above habove =>
        htop above (habove.mono fun _ => PlaceAccessKind.isMutAccess_of_isWriteAccess)
  · rintro ⟨⟨kind, hmem, hkind⟩, hnot, htop⟩
    refine ⟨⟨kind, hmem, ?_⟩, htop, fun h => hnot h.1⟩
    exact (Bool.or_eq_true_iff.mp hkind).resolve_left fun hwrite => hnot ⟨kind, hmem, hwrite⟩

theorem mem_readLeaves_iff :
    place ∈ (leavesOf pairs).readLeaves ↔
      Accessed pairs (fun _ => true) place ∧ ¬ Accessed pairs (·.isMutAccess) place ∧
        ∀ above, Accessed pairs (fun _ => true) above → ¬ above < place := by
  change place ∈ computeReadLeaves pairs (leavesOf pairs).writeLeaves
    (leavesOf pairs).mutBorrowLeaves ↔ _
  rw [computeReadLeaves, mem_collectLeaves_iff, List.mem_append, mem_writeLeaves_iff,
    mem_mutBorrowLeaves_iff]
  constructor
  · rintro ⟨haccess, htop, hnot⟩
    have htop' : ∀ kinds : PlaceAccessKind → Bool, ∀ above, Accessed pairs kinds above →
        ¬ above < place := fun _ above habove => htop above (habove.mono fun _ _ => rfl)
    refine ⟨haccess.mono fun _ _ => rfl, fun hmut => hnot ?_, htop⟩
    by_cases hwrite : Accessed pairs (·.isWriteAccess) place
    · exact .inl ⟨hwrite, htop' _⟩
    · exact .inr ⟨hmut, hwrite, htop' _⟩
  · rintro ⟨⟨kind, hmem, -⟩, hnot, htop⟩
    refine ⟨⟨kind, hmem, ?_⟩, htop, ?_⟩
    · rw [Bool.not_eq_true', ← Bool.not_eq_true]
      exact fun hwrite => hnot ⟨kind, hmem, PlaceAccessKind.isMutAccess_of_isWriteAccess hwrite⟩
    · rintro (h | h)
      · exact hnot (h.1.mono fun _ => PlaceAccessKind.isMutAccess_of_isWriteAccess)
      · exact hnot h.1

/-- Some list has a prefix of the place. -/
def HasLeafAbove (lists : List (List (Place Ty))) (place : Place Ty) : Prop :=
  ∃ leaves ∈ lists, ∃ leaf ∈ leaves, isPrefix place leaf = true

/-- No place of the list is a prefix of another one. -/
def PrefixFree (leaves : List (Place Ty)) : Prop :=
  leaves.Nodup ∧ ∀ leaf ∈ leaves, ∀ other ∈ leaves, isPrefix leaf other = true → other = leaf

theorem hasLeafAbove_write (h : Accessed pairs (·.isWriteAccess) place) :
    HasLeafAbove [(leavesOf pairs).writeLeaves] place := by
  obtain ⟨top, hle, htop⟩ := exists_topmost h
  exact ⟨_, List.mem_singleton_self _, top, mem_writeLeaves_iff.mpr htop, isPrefix_iff.mpr hle⟩

theorem hasLeafAbove_mut (h : Accessed pairs (·.isMutAccess) place) :
    HasLeafAbove [(leavesOf pairs).writeLeaves, (leavesOf pairs).mutBorrowLeaves] place := by
  obtain ⟨top, hle, hmut, htop⟩ := exists_topmost h
  by_cases hwrite : Accessed pairs (·.isWriteAccess) top
  · refine ⟨_, List.mem_cons_self, top, mem_writeLeaves_iff.mpr ⟨hwrite, ?_⟩, isPrefix_iff.mpr hle⟩
    exact fun above habove =>
      htop above (habove.mono fun _ => PlaceAccessKind.isMutAccess_of_isWriteAccess)
  · exact ⟨_, List.mem_cons_of_mem _ (List.mem_singleton_self _), top,
      mem_mutBorrowLeaves_iff.mpr ⟨hmut, hwrite, htop⟩, isPrefix_iff.mpr hle⟩

theorem hasLeafAbove_any (h : Accessed pairs (fun _ => true) place) :
    HasLeafAbove [(leavesOf pairs).writeLeaves, (leavesOf pairs).mutBorrowLeaves,
      (leavesOf pairs).readLeaves] place := by
  obtain ⟨top, hle, hany, htop⟩ := exists_topmost h
  by_cases hmut : Accessed pairs (·.isMutAccess) top
  · obtain ⟨leaves, hleaves, leaf, hleaf, hpre⟩ := hasLeafAbove_mut hmut
    refine ⟨leaves, ?_, leaf, hleaf, isPrefix_iff.mpr ((isPrefix_iff.mp hpre).trans hle)⟩
    rcases List.mem_cons.mp hleaves with rfl | hleaves
    · exact List.mem_cons_self
    · rw [List.mem_singleton.mp hleaves]
      exact List.mem_cons_of_mem _ List.mem_cons_self
  · exact ⟨_, List.mem_cons_of_mem _ (List.mem_cons_of_mem _ (List.mem_singleton_self _)), top,
      mem_readLeaves_iff.mpr ⟨hany, hmut, htop⟩, isPrefix_iff.mpr hle⟩

/-- What leaves have to satisfy for a list of accesses. -/
structure CoverAccesses (pairs : List (AccessPair Ty)) (leaves : Leaves Ty) : Prop where
  write : ∀ access ∈ pairs, access.2 = .store ∨ access.2 = .move →
    HasLeafAbove [leaves.writeLeaves] access.1
  mutBorrow : ∀ access ∈ pairs, access.2 = .mutableBorrow →
    HasLeafAbove [leaves.writeLeaves, leaves.mutBorrowLeaves] access.1
  other : ∀ access ∈ pairs,
    HasLeafAbove [leaves.writeLeaves, leaves.mutBorrowLeaves, leaves.readLeaves] access.1
  writeLeaf : ∀ leaf ∈ leaves.writeLeaves, (leaf, .store) ∈ pairs ∨ (leaf, .move) ∈ pairs
  mutBorrowLeaf : ∀ leaf ∈ leaves.mutBorrowLeaves, (leaf, .mutableBorrow) ∈ pairs
  readLeaf : ∀ leaf ∈ leaves.readLeaves, (leaf, .read) ∈ pairs ∨ (leaf, .sharedBorrow) ∈ pairs
  write_mutBorrow : leaves.writeLeaves.Disjoint leaves.mutBorrowLeaves
  write_read : leaves.writeLeaves.Disjoint leaves.readLeaves
  mutBorrow_read : leaves.mutBorrowLeaves.Disjoint leaves.readLeaves
  prefixFree_write : PrefixFree leaves.writeLeaves
  prefixFree_mutBorrow : PrefixFree leaves.mutBorrowLeaves
  prefixFree_read : PrefixFree leaves.readLeaves

/-- A list of places below which no other accessed places lie. -/
theorem prefixFree_of_topmost {leaves : List (Place Ty)} {kinds : PlaceAccessKind → Bool}
    (hnodup : leaves.Nodup)
    (htop : ∀ leaf ∈ leaves, Accessed pairs kinds leaf ∧
      ∀ above, Accessed pairs kinds above → ¬ above < leaf) : PrefixFree leaves := by
  refine ⟨hnodup, fun leaf hleaf other hother hpre => ?_⟩
  by_contra hne
  exact (htop leaf hleaf).2 other (htop other hother).1 (lt_of_le_of_ne (isPrefix_iff.mp hpre) hne)

/-- Every access is covered by a leaf. -/
theorem leavesOf_coverAccesses (pairs : List (AccessPair Ty)) :
    CoverAccesses pairs (leavesOf pairs) where
  write := by
    rintro ⟨place, kind⟩ hmem hkind
    refine hasLeafAbove_write ⟨kind, hmem, ?_⟩
    rcases hkind with rfl | rfl <;> rfl
  mutBorrow := by
    rintro ⟨place, kind⟩ hmem rfl
    exact hasLeafAbove_mut ⟨_, hmem, rfl⟩
  other := by
    rintro ⟨place, kind⟩ hmem
    exact hasLeafAbove_any ⟨kind, hmem, rfl⟩
  writeLeaf := by
    intro leaf hleaf
    obtain ⟨⟨kind, hmem, hkind⟩, -⟩ := mem_writeLeaves_iff.mp hleaf
    cases kind with
    | store => exact .inl hmem
    | move => exact .inr hmem
    | read | sharedBorrow | mutableBorrow => cases hkind
  mutBorrowLeaf := by
    intro leaf hleaf
    obtain ⟨⟨kind, hmem, hkind⟩, hnot, -⟩ := mem_mutBorrowLeaves_iff.mp hleaf
    cases kind with
    | store | move => exact absurd ⟨_, hmem, rfl⟩ hnot
    | read | sharedBorrow => cases hkind
    | mutableBorrow => exact hmem
  readLeaf := by
    intro leaf hleaf
    obtain ⟨⟨kind, hmem, -⟩, hnot, -⟩ := mem_readLeaves_iff.mp hleaf
    cases kind with
    | read => exact .inl hmem
    | sharedBorrow => exact .inr hmem
    | store | move | mutableBorrow => exact absurd ⟨_, hmem, rfl⟩ hnot
  write_mutBorrow := by
    intro leaf hwrite hmut
    exact (mem_mutBorrowLeaves_iff.mp hmut).2.1 (mem_writeLeaves_iff.mp hwrite).1
  write_read := by
    intro leaf hwrite hread
    exact (mem_readLeaves_iff.mp hread).2.1
      ((mem_writeLeaves_iff.mp hwrite).1.mono fun _ =>
        PlaceAccessKind.isMutAccess_of_isWriteAccess)
  mutBorrow_read := by
    intro leaf hmut hread
    exact (mem_readLeaves_iff.mp hread).2.1 (mem_mutBorrowLeaves_iff.mp hmut).1
  prefixFree_write := by
    refine prefixFree_of_topmost ?_ fun _ hleaf => mem_writeLeaves_iff.mp hleaf
    exact nodup_collectLeaves
  prefixFree_mutBorrow := by
    refine prefixFree_of_topmost ?_ fun _ hleaf =>
      ⟨(mem_mutBorrowLeaves_iff.mp hleaf).1, (mem_mutBorrowLeaves_iff.mp hleaf).2.2⟩
    change (computeMutBorrowLeaves pairs _).Nodup
    exact nodup_collectLeaves
  prefixFree_read := by
    refine prefixFree_of_topmost ?_ fun _ hleaf =>
      ⟨(mem_readLeaves_iff.mp hleaf).1, (mem_readLeaves_iff.mp hleaf).2.2⟩
    change (computeReadLeaves pairs _ _).Nodup
    exact nodup_collectLeaves

/-- The leaves that are computed for a loop cover its accesses. -/
theorem computeReadAndWriteLeaves_covers (loopBody : List BasicBlock)
    (visits : List (PlaceVisit Ty)) (definitelyInitialisedPaths : Option (Finset (Place Ty))) :
    match computeUsedPaths loopBody visits with
    | some accesses => ∃ leaves,
        computeReadAndWriteLeaves loopBody visits definitelyInitialisedPaths = some leaves ∧
          CoverAccesses (accessPairs accesses definitelyInitialisedPaths) leaves
    | none => computeReadAndWriteLeaves loopBody visits definitelyInitialisedPaths = none := by
  cases hpaths : computeUsedPaths loopBody visits with
  | none => simp only [computeReadAndWriteLeaves, hpaths, Option.map_none]
  | some accesses =>
    refine ⟨_, ?_, leavesOf_coverAccesses _⟩
    simp only [computeReadAndWriteLeaves, hpaths, Option.map_some]

end Leaves

end Prusti.LoopInvariant

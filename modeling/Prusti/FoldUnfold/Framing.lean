/-
Framing is a bracket: between the beginning and the end of a frame, the permissions that
are added and removed are disjoint from those that are framed.
-/
import Mathlib.Order.CompletePartialOrder
import Prusti.FoldUnfold.State

namespace Prusti.Vir.PermAmount

variable {left right : PermAmount}

/-- The parts of a full permission. -/
inductive Share where
  | read
  | remaining
deriving DecidableEq

/-- A full permission has both shares. -/
def has : PermAmount → Share → Bool
  | write, _ => true
  | read, share => share = .read
  | remaining, share => share = .remaining

theorem has_add {sum : PermAmount} (h : left.add right = some sum) (share : Share) :
    (sum.has share = true ↔ left.has share = true ∨ right.has share = true) ∧
      ¬ (left.has share = true ∧ right.has share = true) := by
  cases left <;> cases right <;> cases h <;> cases share <;> decide

theorem exists_has_of_add_eq_none (h : left.add right = none) :
    ∃ share, left.has share = true ∧ right.has share = true := by
  cases left <;> cases right <;> first
    | exact ⟨.read, rfl, rfl⟩
    | exact ⟨.remaining, rfl, rfl⟩
    | cases h

theorem has_sub {difference : PermAmount} (h : left.sub right = some difference) (share : Share) :
    (difference.has share = true ↔ left.has share = true ∧ ¬ right.has share = true) ∧
      (right.has share = true → left.has share = true) := by
  cases left <;> cases right <;> cases h <;> cases share <;> decide

theorem exists_has (amount : PermAmount) : ∃ share, amount.has share = true := by
  cases amount with
  | read | write => exact ⟨.read, rfl⟩
  | remaining => exact ⟨.remaining, rfl⟩

theorem eq_of_has_iff (h : ∀ share, left.has share = true ↔ right.has share = true) :
    left = right := by
  have hread := h .read
  have hremaining := h .remaining
  cases left <;> cases right <;> first
    | rfl
    | exact absurd hread (by decide)
    | exact absurd hremaining (by decide)

end Prusti.Vir.PermAmount

namespace Prusti.Vir.Expr

theorem isLocal_of_beq {left right : Expr} (h : (left == right) = true)
    (hlocal : left.isLocal = true) : right.isLocal = true := by
  cases left with
  | localVar var pos =>
    cases right with
    | localVar => rfl
    | _ => cases h
  | _ => cases hlocal

theorem isLocal_congr {left right : Expr} (h : (left == right) = true) :
    left.isLocal = right.isLocal :=
  Bool.eq_iff_iff.mpr ⟨isLocal_of_beq h, isLocal_of_beq (BEq.symm h)⟩

end Prusti.Vir.Expr

namespace Prusti.FoldUnfold

open Prusti.Vir Prusti.Lib

/-- A share of a permission to a place. -/
abbrev Atom := Kind × Expr × PermAmount.Share

/-- The shares of a permission. -/
def Perm.atoms (perm : Perm) : Set Atom :=
  { atom | perm.kind = atom.1 ∧ (perm.getPlace == atom.2.1) = true ∧
    perm.getPermAmount.has atom.2.2 = true }

/-- The shares in a map. -/
def sharesOf (map : HashMap Expr PermAmount) : Set (Expr × PermAmount.Share) :=
  { entry | ∃ amount, map.get? entry.1 = some amount ∧ amount.has entry.2 = true }

/-- The shares of an amount at a place. -/
def sharesAt (place : Expr) (perm : PermAmount) : Set (Expr × PermAmount.Share) :=
  { entry | (place == entry.1) = true ∧ perm.has entry.2 = true }

section Amounts

variable {map map' : HashMap Expr PermAmount} {place : Expr} {perm : PermAmount}

theorem sharesOf_insert_of_none (h : map.get? place = none) :
    Disjoint (sharesOf map) (sharesAt place perm) ∧
      sharesOf (map.insert place perm) = sharesOf map ∪ sharesAt place perm := by
  have hnone : ∀ other, (place == other) = true → map.get? other = none := fun other hother =>
    (map.get?_congr hother).symm.trans h
  constructor
  · rw [Set.disjoint_left]
    rintro ⟨other, share⟩ ⟨amount, hget, -⟩ ⟨hother, -⟩
    rw [hnone other hother] at hget
    cases hget
  · ext ⟨other, share⟩
    simp only [sharesOf, sharesAt, Set.mem_ofPred_eq, Set.mem_union, HashMap.get?_insert]
    by_cases hother : (place == other) = true
    · simp [hother, hnone other hother]
    · simp [hother]

theorem sharesOf_insert_of_add {old sum : PermAmount} (h : map.get? place = some old)
    (hadd : old.add perm = some sum) :
    Disjoint (sharesOf map) (sharesAt place perm) ∧
      sharesOf (map.insert place sum) = sharesOf map ∪ sharesAt place perm := by
  have hsome : ∀ other, (place == other) = true → map.get? other = some old :=
    fun other hother => (map.get?_congr hother).symm.trans h
  constructor
  · rw [Set.disjoint_left]
    rintro ⟨other, share⟩ ⟨amount, hget, hold⟩ ⟨hother, hperm⟩
    rw [hsome other hother] at hget
    cases hget
    exact (PermAmount.has_add hadd share).2 ⟨hold, hperm⟩
  · ext ⟨other, share⟩
    simp only [sharesOf, sharesAt, Set.mem_ofPred_eq, Set.mem_union, HashMap.get?_insert]
    by_cases hother : (place == other) = true
    · simp [hother, hsome other hother, (PermAmount.has_add hadd share).1]
    · simp [hother]

/-- An insertion adds the shares that are inserted to those that are there. -/
theorem sharesOf_insertAmount (h : insertAmount map place perm = .ok map') :
    Disjoint (sharesOf map) (sharesAt place perm) ∧
      sharesOf map' = sharesOf map ∪ sharesAt place perm := by
  rw [insertAmount] at h
  split at h
  · next old hold =>
      obtain ⟨sum, hadd, h⟩ := exists_of_bind_eq_ok h
      obtain ⟨-, -, h⟩ := exists_of_bind_eq_ok h
      cases h
      exact sharesOf_insert_of_add hold ((addE_eq_ok_iff _ _ _).mp hadd)
  · next hnone =>
      cases h
      exact sharesOf_insert_of_none hnone

/-- An insertion succeeds when none of the shares are there. -/
theorem exists_insertAmount (h : Disjoint (sharesOf map) (sharesAt place perm)) :
    ∃ map', insertAmount map place perm = .ok map' := by
  cases hget : map.get? place with
  | none => exact ⟨_, by rw [insertAmount, hget]; rfl⟩
  | some old =>
    cases hadd : old.add perm with
    | none =>
      obtain ⟨share, hold, hperm⟩ := PermAmount.exists_has_of_add_eq_none hadd
      obtain ⟨key, -, hkey⟩ := HashMap.exists_key_of_get? hget
      have hrefl : (place == place) = true := BEq.trans (BEq.symm hkey) hkey
      have hmem : (place, share) ∈ sharesOf map := ⟨old, hget, hold⟩
      exact absurd ⟨hrefl, hperm⟩ (Set.disjoint_left.mp h hmem)
    | some sum =>
      refine ⟨map.insert place sum, ?_⟩
      have hsum : sum = .write := by
        cases old <;> cases perm <;> cases hadd <;> rfl
      rw [insertAmount, hget]
      simp only [(addE_eq_ok_iff _ _ _).mpr hadd, hsum]
      rfl

/-- A removal takes away shares that are there. -/
theorem sharesOf_removeAmount {missing : Exn} (h : removeAmount map place perm missing = .ok map') :
    sharesAt place perm ⊆ sharesOf map ∧ sharesOf map' = sharesOf map \ sharesAt place perm := by
  rw [removeAmount] at h
  split at h
  · next old hold =>
      have hsome : ∀ other, (place == other) = true → map.get? other = some old :=
        fun other hother => (map.get?_congr hother).symm.trans hold
      split at h
      · next heq =>
          rw [beq_iff_eq] at heq
          subst heq
          cases h
          constructor
          · rintro ⟨other, share⟩ ⟨hother, hperm⟩
            exact ⟨old, hsome other hother, hperm⟩
          · ext ⟨other, share⟩
            simp only [sharesOf, sharesAt, Set.mem_ofPred_eq, Set.mem_sdiff, HashMap.get?_erase]
            by_cases hother : (place == other) = true
            · simp [hother, hsome other hother]
            · simp [hother]
      · obtain ⟨difference, hsub, h⟩ := exists_of_bind_eq_ok h
        rw [subE_eq_ok_iff] at hsub
        cases h
        constructor
        · rintro ⟨other, share⟩ ⟨hother, hperm⟩
          exact ⟨old, hsome other hother, (PermAmount.has_sub hsub share).2 hperm⟩
        · ext ⟨other, share⟩
          simp only [sharesOf, sharesAt, Set.mem_ofPred_eq, Set.mem_sdiff, HashMap.get?_insert]
          by_cases hother : (place == other) = true
          · simp [hother, hsome other hother, (PermAmount.has_sub hsub share).1]
          · simp [hother]
  · cases h

/-- The shares determine what a map gives. -/
theorem get?_eq_of_sharesOf_eq (h : sharesOf map = sharesOf map') (place : Expr) :
    map.get? place = map'.get? place := by
  have hiff : ∀ share, (∃ amount, map.get? place = some amount ∧ amount.has share = true) ↔
      ∃ amount, map'.get? place = some amount ∧ amount.has share = true := fun share =>
    Set.ext_iff.mp h (place, share)
  cases hget : map.get? place with
  | none =>
    cases hget' : map'.get? place with
    | none => rfl
    | some amount' =>
      obtain ⟨share, hshare⟩ := amount'.exists_has
      obtain ⟨amount, hamount, -⟩ := (hiff share).mpr ⟨amount', hget', hshare⟩
      rw [hget] at hamount
      cases hamount
  | some amount =>
    cases hget' : map'.get? place with
    | none =>
      obtain ⟨share, hshare⟩ := amount.exists_has
      obtain ⟨amount', hamount', -⟩ := (hiff share).mp ⟨amount, hget, hshare⟩
      rw [hget'] at hamount'
      cases hamount'
    | some amount' =>
      congr 1
      refine PermAmount.eq_of_has_iff fun share => ?_
      simpa [hget, hget'] using hiff share

end Amounts

namespace State

/-- The shares of all permissions that are held. -/
def atoms (state : State) : Set Atom := { atom | atom.2 ∈ sharesOf (state.held atom.1) }

end State

theorem Perm.mem_atoms {perm : Perm} {atom : Atom} :
    atom ∈ perm.atoms ↔
      perm.kind = atom.1 ∧ atom.2 ∈ sharesAt perm.getPlace perm.getPermAmount := Iff.rfl

namespace State

variable {state state' : State} {perm : Perm}

theorem disjoint_atoms_iff :
    Disjoint state.atoms perm.atoms ↔ Disjoint (sharesOf (state.held perm.kind))
      (sharesAt perm.getPlace perm.getPermAmount) := by
  rw [Set.disjoint_left, Set.disjoint_left]
  constructor
  · intro h share hheld hperm
    exact h (a := (perm.kind, share)) hheld ⟨rfl, hperm⟩
  · rintro h ⟨kind, share⟩ hheld ⟨rfl, hperm⟩
    exact h hheld hperm

/-- Permissions are added to those that are held. -/
theorem atoms_insertPerm (h : state.insertPerm perm = .ok state') :
    Disjoint state.atoms perm.atoms ∧ state'.atoms = state.atoms ∪ perm.atoms ∧
      state'.framingStack = state.framingStack := by
  obtain ⟨map, hmap, rfl⟩ := insertPerm_eq_ok_iff.mp h
  obtain ⟨hdisjoint, hunion⟩ := sharesOf_insertAmount hmap
  refine ⟨disjoint_atoms_iff.mpr hdisjoint, ?_, framingStack_setHeld _ _ _⟩
  ext ⟨kind, share⟩
  rw [Set.mem_union, Perm.mem_atoms]
  change share ∈ sharesOf ((state.setHeld perm.kind map).held kind) ↔
    share ∈ sharesOf (state.held kind) ∨ perm.kind = kind ∧ _
  by_cases hkind : perm.kind = kind
  · subst hkind
    rw [held_setHeld, hunion, Set.mem_union]
    simp
  · rw [held_setHeld_of_ne _ _ hkind]
    simp [hkind]

theorem exists_insertPerm (h : Disjoint state.atoms perm.atoms) :
    ∃ state', state.insertPerm perm = .ok state' := by
  obtain ⟨map, hmap⟩ := exists_insertAmount (disjoint_atoms_iff.mp h)
  exact ⟨state.setHeld perm.kind map, insertPerm_eq_ok_iff.mpr ⟨map, hmap, rfl⟩⟩

/-- Permissions are taken from those that are held. -/
theorem atoms_removePerm (h : state.removePerm perm = .ok state') :
    perm.atoms ⊆ state.atoms ∧ state'.atoms = state.atoms \ perm.atoms ∧
      state'.framingStack = state.framingStack := by
  obtain ⟨map, missing, hmap, rfl⟩ := removePerm_eq_ok h
  obtain ⟨hsubset, hdiff⟩ := sharesOf_removeAmount hmap
  refine ⟨?_, ?_, framingStack_setHeld _ _ _⟩
  · rintro ⟨kind, share⟩ ⟨rfl, hperm⟩
    exact hsubset hperm
  · ext ⟨kind, share⟩
    rw [Set.mem_sdiff, Perm.mem_atoms]
    change share ∈ sharesOf ((state.setHeld perm.kind map).held kind) ↔
      share ∈ sharesOf (state.held kind) ∧ ¬ (perm.kind = kind ∧ _)
    by_cases hkind : perm.kind = kind
    · subst hkind
      rw [held_setHeld, hdiff, Set.mem_sdiff]
      simp
    · rw [held_setHeld_of_ne _ _ hkind]
      simp [hkind]

end State

theorem Perm.disjoint_atoms_of_place {perm perm' : Perm}
    (h : (perm.getPlace == perm'.getPlace) = false) : Disjoint perm.atoms perm'.atoms := by
  rw [Set.disjoint_left]
  rintro atom ⟨-, hplace, -⟩ ⟨-, hplace', -⟩
  rw [BEq.trans hplace (BEq.symm hplace')] at h
  cases h

/-- The shares of a list of permissions. -/
def allAtoms (perms : List Perm) : Set Atom := { atom | ∃ perm ∈ perms, atom ∈ perm.atoms }

theorem allAtoms_cons (perm : Perm) (perms : List Perm) :
    allAtoms (perm :: perms) = perm.atoms ∪ allAtoms perms := by
  ext atom
  simp [allAtoms]

namespace State

variable {state state' : State} {perms : List Perm}

theorem atoms_insertAllPerms (h : state.insertAllPerms perms = .ok state') :
    Disjoint state.atoms (allAtoms perms) ∧ state'.atoms = state.atoms ∪ allAtoms perms ∧
      state'.framingStack = state.framingStack := by
  induction perms generalizing state with
  | nil =>
    cases h
    simp [allAtoms]
  | cons perm perms ih =>
    rw [insertAllPerms, List.foldlM_cons] at h
    obtain ⟨between, hbetween, h⟩ := exists_of_bind_eq_ok h
    obtain ⟨hdisjoint, hatoms, hstack⟩ := atoms_insertPerm hbetween
    obtain ⟨hdisjoint', hatoms', hstack'⟩ := ih h
    rw [hatoms, Set.disjoint_union_left] at hdisjoint'
    rw [allAtoms_cons]
    refine ⟨Set.disjoint_union_right.mpr ⟨hdisjoint, hdisjoint'.1⟩, ?_, hstack'.trans hstack⟩
    rw [hatoms', hatoms, Set.union_assoc]

theorem exists_insertAllPerms
    (hperms : perms.Pairwise fun perm perm' => Disjoint perm.atoms perm'.atoms)
    (h : Disjoint state.atoms (allAtoms perms)) :
    ∃ state', state.insertAllPerms perms = .ok state' := by
  induction perms generalizing state with
  | nil => exact ⟨state, rfl⟩
  | cons perm perms ih =>
    rw [List.pairwise_cons] at hperms
    rw [allAtoms_cons, Set.disjoint_union_right] at h
    obtain ⟨between, hbetween⟩ := exists_insertPerm h.1
    have hrest : Disjoint between.atoms (allAtoms perms) := by
      rw [(atoms_insertPerm hbetween).2.1, Set.disjoint_union_left]
      refine ⟨h.2, Set.disjoint_left.mpr ?_⟩
      rintro atom hatom ⟨perm', hperm', hatom'⟩
      exact Set.disjoint_left.mp (hperms.1 perm' hperm') hatom hatom'
    obtain ⟨state', hstate'⟩ := ih hperms.2 hrest
    refine ⟨state', ?_⟩
    rw [insertAllPerms, List.foldlM_cons, hbetween]
    exact hstate'

end State

namespace PermSet

variable (entries : List (Expr × PermAmount)) (set : PermSet)

theorem foldl_add_acc :
    entries.foldl (fun set entry => set.add (.acc entry.1 entry.2)) set =
      { set with accPerms :=
          entries.foldl (fun map entry => map.insert entry.1 entry.2) set.accPerms } := by
  induction entries generalizing set with
  | nil => rfl
  | cons entry entries ih =>
    rw [List.foldl_cons, ih]
    rfl

theorem foldl_add_pred :
    entries.foldl (fun set entry => set.add (.pred entry.1 entry.2)) set =
      { set with predPerms :=
          entries.foldl (fun map entry => map.insert entry.1 entry.2) set.predPerms } := by
  induction entries generalizing set with
  | nil => rfl
  | cons entry entries ih =>
    rw [List.foldl_cons, ih]
    rfl

/-- The shares in the entries of a map. -/
theorem mem_sharesOf_iff {map : HashMap Expr PermAmount} {share : Expr × PermAmount.Share} :
    share ∈ sharesOf map ↔ ∃ entry ∈ map.entries, share ∈ sharesAt entry.1 entry.2 := by
  constructor
  · rintro ⟨amount, hget, hshare⟩
    obtain ⟨entry, hentry, hkey, rfl⟩ := exists_mem_of_lookup_eq_some hget
    exact ⟨entry, hentry, hkey, hshare⟩
  · rintro ⟨entry, hentry, hkey, hshare⟩
    exact ⟨entry.2, HashMap.get?_of_mem hentry hkey, hshare⟩

variable {set}

theorem allAtoms_perms (order : IterOrder) :
    allAtoms (set.perms order) =
      { atom | atom.1 = .acc ∧ atom.2 ∈ sharesOf set.accPerms ∨
        atom.1 = .pred ∧ atom.2 ∈ sharesOf set.predPerms } := by
  ext ⟨kind, share⟩
  simp only [allAtoms, perms, Set.mem_ofPred_eq, List.mem_append, List.mem_map,
    IterOrder.mem_iter, mem_sharesOf_iff]
  constructor
  · rintro ⟨perm, ⟨entry, hentry, rfl⟩ | ⟨entry, hentry, rfl⟩, rfl, hshare⟩
    · exact .inl ⟨rfl, entry, hentry, hshare⟩
    · exact .inr ⟨rfl, entry, hentry, hshare⟩
  · rintro (⟨rfl, entry, hentry, hshare⟩ | ⟨rfl, entry, hentry, hshare⟩)
    · exact ⟨_, .inl ⟨entry, hentry, rfl⟩, rfl, hshare⟩
    · exact ⟨_, .inr ⟨entry, hentry, rfl⟩, rfl, hshare⟩

/-- The permissions of a set do not overlap. -/
theorem pairwise_perms (order : IterOrder) :
    (set.perms order).Pairwise fun perm perm' => Disjoint perm.atoms perm'.atoms := by
  have hentries : ∀ (map : HashMap Expr PermAmount) (idx : Nat),
      (order.iter idx map.entries).Pairwise fun left right =>
        (left.1 == right.1) = false := fun map idx =>
    ((order.iter_perm idx map.entries).pairwise_iff fun h => BEq.comm.trans h).mpr map.nodup
  rw [perms, List.pairwise_append, List.pairwise_map, List.pairwise_map]
  refine ⟨(hentries _ 0).imp fun h => Perm.disjoint_atoms_of_place h,
    (hentries _ 1).imp fun h => Perm.disjoint_atoms_of_place h, ?_⟩
  intro perm hperm perm' hperm'
  obtain ⟨entry, -, rfl⟩ := List.mem_map.mp hperm
  obtain ⟨entry', -, rfl⟩ := List.mem_map.mp hperm'
  rw [Set.disjoint_left]
  rintro atom ⟨hkind, -⟩ ⟨hkind', -⟩
  cases hkind.trans hkind'.symm

end PermSet

namespace State

variable {state state' : State}

/-- The shares that a frame takes away: all but those of the access permissions to local
variables. -/
def framedAtoms (state : State) : Set Atom :=
  { atom | atom ∈ state.atoms ∧ ¬ (atom.1 = .acc ∧ atom.2.1.isLocal = true) }

theorem atoms_beginFrame (state : State) :
    state.beginFrame.atoms = state.atoms \ state.framedAtoms := by
  ext ⟨kind, place, share⟩
  rw [Set.mem_sdiff]
  cases kind with
  | acc =>
    have hget : (state.acc.retain Expr.isLocal).get? place =
        if place.isLocal then state.acc.get? place else none :=
      state.acc.get?_retain Expr.isLocal (fun _ _ => Expr.isLocal_congr) place
    change (∃ amount, (state.acc.retain Expr.isLocal).get? place = some amount ∧ _) ↔
      (∃ amount, state.acc.get? place = some amount ∧ _) ∧ _
    rw [hget]
    cases hlocal : place.isLocal with
    | true => simp [framedAtoms, hlocal]
    | false =>
      simp only [framedAtoms, atoms, sharesOf, Set.mem_ofPred_eq, held, hlocal]
      simp
  | pred =>
    change (∃ amount, (HashMap.empty : HashMap Expr PermAmount).get? place = some amount ∧ _) ↔
      (∃ amount, state.pred.get? place = some amount ∧ _) ∧ _
    simp [framedAtoms, atoms, sharesOf, held]

theorem exists_framed (state : State) :
    ∃ framed : PermSet, state.beginFrame.framingStack = framed :: state.framingStack ∧
      ∀ order, allAtoms (framed.perms order) = state.framedAtoms := by
  refine ⟨_, rfl, fun order => ?_⟩
  rw [PermSet.allAtoms_perms, PermSet.foldl_add_acc, PermSet.foldl_add_pred]
  ext ⟨kind, place, share⟩
  cases kind with
  | acc =>
    have hget : (HashMap.ofList (state.acc.entries.filter fun entry =>
        !entry.1.isLocal)).get? place = if place.isLocal then none else state.acc.get? place := by
      rw [HashMap.get?_ofList (state.acc.nodup.filter _),
        lookup_filter state.acc.entries (fun place => !place.isLocal)
          (fun _ _ h => by rw [Expr.isLocal_congr h])]
      cases place.isLocal <;> rfl
    simp only [Set.mem_ofPred_eq, true_and, reduceCtorEq, false_and, or_false]
    change (∃ amount, (HashMap.ofList (state.acc.entries.filter fun entry =>
      !entry.1.isLocal)).get? place = some amount ∧ _) ↔ _
    rw [hget]
    cases hlocal : place.isLocal with
    | true => simp [framedAtoms, hlocal]
    | false => simp [framedAtoms, atoms, sharesOf, held, hlocal]
  | pred =>
    have hget : (HashMap.ofList state.pred.entries).get? place = state.pred.get? place :=
      HashMap.get?_ofList state.pred.nodup place
    simp only [Set.mem_ofPred_eq, true_and, reduceCtorEq, false_and, false_or]
    change (∃ amount, (HashMap.ofList state.pred.entries).get? place = some amount ∧ _) ↔ _
    rw [hget]
    simp [framedAtoms, atoms, sharesOf, held]

end State

namespace State

variable {order : IterOrder} {state state' : State} {framed : PermSet} {rest : List PermSet}

/-- The end of a frame adds what was framed. -/
theorem atoms_endFrame (hstack : state.framingStack = framed :: rest)
    (h : state.endFrame order = .ok state') :
    Disjoint state.atoms (allAtoms (framed.perms order)) ∧
      state'.atoms = state.atoms ∪ allAtoms (framed.perms order) ∧ state'.framingStack = rest := by
  rw [endFrame, hstack] at h
  exact atoms_insertAllPerms h

theorem exists_endFrame (hstack : state.framingStack = framed :: rest)
    (h : Disjoint state.atoms (allAtoms (framed.perms order))) :
    ∃ state', state.endFrame order = .ok state' := by
  rw [endFrame, hstack]
  exact exists_insertAllPerms (PermSet.pairwise_perms order) h

theorem framedAtoms_subset (state : State) : state.framedAtoms ⊆ state.atoms :=
  fun _ h => h.1

end State

/-- The operations inside of frames. -/
inductive FrameOp where
  | insertPerm (perm : Perm)
  | removePerm (perm : Perm)
  | insertMoved (place : Expr)
  | beginFrame
  | endFrame

namespace FrameOp

def apply (order : IterOrder) (state : State) : FrameOp → Except Exn State
  | insertPerm perm => state.insertPerm perm
  | removePerm perm => state.removePerm perm
  | insertMoved place => pure (state.insertMoved place)
  | beginFrame => pure state.beginFrame
  | endFrame => state.endFrame order

def run (order : IterOrder) (ops : List FrameOp) (state : State) : Except Exn State :=
  ops.foldlM (apply order) state

/-- Operations that nest their frames properly and remove only permissions that they added.
The sets are the shares that were added and not removed, before and after the operations;
those that are held at the end of an inner frame belong to the outer one from then on. -/
inductive Nests : Set Atom → List FrameOp → Set Atom → Prop
  | nil {own : Set Atom} : Nests own [] own
  | insertPerm {own own' : Set Atom} {perm : Perm} {ops : List FrameOp} :
      Nests (own ∪ perm.atoms) ops own' → Nests own (insertPerm perm :: ops) own'
  | removePerm {own own' : Set Atom} {perm : Perm} {ops : List FrameOp} :
      perm.atoms ⊆ own → Nests (own \ perm.atoms) ops own' →
      Nests own (removePerm perm :: ops) own'
  | insertMoved {own own' : Set Atom} {place : Expr} {ops : List FrameOp} :
      Nests own ops own' → Nests own (insertMoved place :: ops) own'
  | frame {own inner own' : Set Atom} {innerOps ops : List FrameOp} :
      Nests ∅ innerOps inner → Nests (own ∪ inner) ops own' →
      Nests own (beginFrame :: innerOps ++ endFrame :: ops) own'

variable {order : IterOrder} {state inside after : State} {ops : List FrameOp}

/-- What is held at the end of a frame and what was framed are what was held before the
frame and what was added. -/
theorem atoms_of_frame {inner : Set Atom} (hdisjoint : Disjoint state.beginFrame.atoms inner)
    (hinside : inside.atoms = state.beginFrame.atoms ∪ inner)
    (hstack : inside.framingStack = state.beginFrame.framingStack)
    (hend : inside.endFrame order = .ok after) :
    Disjoint state.atoms inner ∧ after.atoms = state.atoms ∪ inner ∧
      after.framingStack = state.framingStack := by
  obtain ⟨framed, hframed, hatoms⟩ := state.exists_framed
  obtain ⟨hdisjoint', hafter, hrest⟩ := State.atoms_endFrame (hstack.trans hframed) hend
  have hsplit : state.beginFrame.atoms ∪ state.framedAtoms = state.atoms := by
    rw [State.atoms_beginFrame, Set.sdiff_union_of_subset state.framedAtoms_subset]
  rw [hatoms, hinside, Set.disjoint_union_left] at hdisjoint'
  refine ⟨?_, ?_, hrest⟩
  · rw [← hsplit, Set.disjoint_union_left]
    exact ⟨hdisjoint, hdisjoint'.2.symm⟩
  · rw [hafter, hatoms, hinside, Set.union_right_comm, hsplit]

/-- Properly nested operations change only what is their own. -/
theorem Nests.run_eq_ok {own own' : Set Atom} (h : Nests own ops own') {base : Set Atom}
    {state after : State} (hatoms : state.atoms = base ∪ own) (hdisjoint : Disjoint base own)
    (hrun : run order ops state = .ok after) :
    after.atoms = base ∪ own' ∧ Disjoint base own' ∧ after.framingStack = state.framingStack := by
  induction h generalizing state after base with
  | nil =>
    cases hrun
    exact ⟨hatoms, hdisjoint, rfl⟩
  | @insertPerm own own' perm ops _ ih =>
    rw [run, List.foldlM_cons] at hrun
    obtain ⟨between, hbetween, hrun⟩ := exists_of_bind_eq_ok hrun
    obtain ⟨hnew, hunion, hstack⟩ := State.atoms_insertPerm hbetween
    rw [hatoms, Set.disjoint_union_left] at hnew
    rw [hatoms, Set.union_assoc] at hunion
    obtain ⟨hafter, hown, hstack'⟩ :=
      ih hunion (Set.disjoint_union_right.mpr ⟨hdisjoint, hnew.1⟩) hrun
    exact ⟨hafter, hown, hstack'.trans hstack⟩
  | @removePerm own own' perm ops hsubset _ ih =>
    rw [run, List.foldlM_cons] at hrun
    obtain ⟨between, hbetween, hrun⟩ := exists_of_bind_eq_ok hrun
    obtain ⟨-, hdiff, hstack⟩ := State.atoms_removePerm hbetween
    have hbase : base \ perm.atoms = base := (hdisjoint.mono_right hsubset).sdiff_eq_left
    rw [hatoms, Set.union_sdiff_distrib, hbase] at hdiff
    obtain ⟨hafter, hown, hstack'⟩ := ih hdiff (hdisjoint.mono_right Set.sdiff_subset) hrun
    exact ⟨hafter, hown, hstack'.trans hstack⟩
  | @insertMoved own own' place ops _ ih =>
    rw [run, List.foldlM_cons] at hrun
    obtain ⟨between, hbetween, hrun⟩ := exists_of_bind_eq_ok hrun
    have hsame : between.atoms = state.atoms ∧ between.framingStack = state.framingStack := by
      cases hbetween
      exact ⟨rfl, rfl⟩
    rw [← hsame.2]
    exact ih (hsame.1.trans hatoms) hdisjoint hrun
  | @frame own inner own' innerOps ops _ _ ihInner ih =>
    rw [run, List.cons_append, List.foldlM_cons] at hrun
    obtain ⟨_, hbegin, hrun⟩ := exists_of_bind_eq_ok hrun
    cases hbegin
    rw [List.foldlM_append] at hrun
    obtain ⟨inside, hinside, hrun⟩ := exists_of_bind_eq_ok hrun
    rw [List.foldlM_cons] at hrun
    obtain ⟨closed, hclosed, hrun⟩ := exists_of_bind_eq_ok hrun
    obtain ⟨hinner, hdisjointInner, hstackInner⟩ :=
      ihInner (Set.union_empty _).symm (Set.disjoint_empty _) hinside
    obtain ⟨hdisjointClosed, hunion, hstack⟩ :=
      atoms_of_frame hdisjointInner hinner hstackInner hclosed
    rw [hatoms, Set.disjoint_union_left] at hdisjointClosed
    rw [hatoms, Set.union_assoc] at hunion
    obtain ⟨hafter, hown, hstack'⟩ :=
      ih hunion (Set.disjoint_union_right.mpr ⟨hdisjoint, hdisjointClosed.1⟩) hrun
    exact ⟨hafter, hown, hstack'.trans hstack⟩

/-- The end of a frame fails only when a share that was added inside of it and is still held
was framed too, and without such shares the permissions are those before the frame. -/
theorem frame_bracket {own : Set Atom} (hnests : Nests ∅ ops own)
    (hrun : run order ops state.beginFrame = .ok inside) :
    ((∃ after, inside.endFrame order = .ok after) ↔ Disjoint own state.framedAtoms) ∧
      (own = ∅ → ∃ after, inside.endFrame order = .ok after ∧
        (∀ place, after.acc.get? place = state.acc.get? place) ∧
        (∀ place, after.pred.get? place = state.pred.get? place) ∧
        after.framingStack = state.framingStack) := by
  obtain ⟨hinside, hdisjoint, hstack⟩ :=
    hnests.run_eq_ok (Set.union_empty _).symm (Set.disjoint_empty _) hrun
  obtain ⟨framed, hframed, hatoms⟩ := state.exists_framed
  have hiff : (∃ after, inside.endFrame order = .ok after) ↔ Disjoint own state.framedAtoms := by
    have hlocal : Disjoint state.beginFrame.atoms state.framedAtoms := by
      rw [State.atoms_beginFrame]
      exact Set.disjoint_sdiff_left
    constructor
    · rintro ⟨after, hafter⟩
      have hend := (State.atoms_endFrame (hstack.trans hframed) hafter).1
      rw [hatoms, hinside, Set.disjoint_union_left] at hend
      exact hend.2
    · intro hown
      refine State.exists_endFrame (hstack.trans hframed) ?_
      rw [hatoms, hinside, Set.disjoint_union_left]
      exact ⟨hlocal, hown⟩
  refine ⟨hiff, fun hempty => ?_⟩
  subst hempty
  obtain ⟨after, hafter⟩ := hiff.mpr (Set.empty_disjoint _)
  obtain ⟨-, hsame, hrest⟩ := atoms_of_frame hdisjoint hinside hstack hafter
  rw [Set.union_empty] at hsame
  have hheld : ∀ kind, sharesOf (after.held kind) = sharesOf (state.held kind) := by
    intro kind
    ext share
    exact Set.ext_iff.mp hsame (kind, share)
  exact ⟨after, hafter, get?_eq_of_sharesOf_eq (hheld .acc), get?_eq_of_sharesOf_eq (hheld .pred),
    hrest⟩

namespace Witness

def var : Expr := .localVar ⟨"x", .typedRef "S"⟩ Position.default

def field (name : String) : Expr := .field var ⟨name, .int⟩ Position.default

/-- A local variable with one of its fields. -/
def start : State :=
  State.new (HashMap.ofList [(var, .write), (field "f", .read)]) HashMap.empty HashMap.empty

/-- The framed field is added and removed in an inner frame. -/
def innerFrame : List FrameOp :=
  [.insertPerm (.acc (field "g") .write), .beginFrame, .insertPerm (.acc (field "f") .read),
    .removePerm (.acc (field "f") .read), .endFrame, .removePerm (.acc (field "g") .write)]

theorem nests_innerFrame : Nests ∅ innerFrame ∅ := by
  have hinner : Nests ∅ [.insertPerm (.acc (field "f") .read),
      .removePerm (.acc (field "f") .read)] ∅ := by
    refine .insertPerm (.removePerm Set.subset_union_right ?_)
    rw [Set.union_sdiff_right, Set.empty_sdiff]
    exact .nil
  have hafter : Nests (∅ ∪ (Perm.acc (field "g") .write).atoms ∪ ∅)
      [.removePerm (.acc (field "g") .write)] ∅ := by
    rw [Set.empty_union, Set.union_empty]
    refine .removePerm (Set.Subset.refl _) ?_
    rw [Set.sdiff_self]
    exact .nil
  exact .insertPerm (.frame hinner hafter)

theorem nested_frame_bracket :
    ∃ inside, run IterOrder.identity innerFrame start.beginFrame = .ok inside ∧
      ((∃ after, inside.endFrame IterOrder.identity = .ok after) ↔ Disjoint ∅ start.framedAtoms) ∧
      (∅ = (∅ : Set Atom) → ∃ after, inside.endFrame IterOrder.identity = .ok after ∧
        (∀ place, after.acc.get? place = start.acc.get? place) ∧
        (∀ place, after.pred.get? place = start.pred.get? place) ∧
        after.framingStack = start.framingStack) :=
  ⟨_, rfl, frame_bracket nests_innerFrame rfl⟩

end Witness

end FrameOp

end Prusti.FoldUnfold

/-
The ghost variables are renamed consistently if and only if no call in the body of a
package statement assigns one and the expressions there have no occurrence that the
fixer misses.
-/
import Prusti.Fixes.GhostVars

namespace Prusti.Fixes

open Prusti.Lib Prusti.Vir Prusti.Cfg

variable {after : GhostVarFixer} {packages : List (List LocalVar × List Stmt)}

/-- The variables that a package statement declares. -/
def ghostOf (vars : List LocalVar) : LocalVar → Bool :=
  fun var => vars.any (· == var)

/-- The new declarations are the old ones under their new names. -/
structure RenamesDecls (count : Nat) (vars newVars : List LocalVar) : Prop where
  kept : ∀ var ∈ vars, ∃ newVar ∈ newVars, newVar.name = (fixName count var).name
  only : ∀ newVar ∈ newVars, ∃ var ∈ vars, newVar = fixName count var

mutual

/-- The body of every package statement is renamed as its declarations are, and nothing
else changes. -/
def RenamesStmt : Stmt → Stmt → Prop
  | .packageMagicWand wand body label vars pos, newStmt =>
    ∃ count newVars, RenamesDecls count vars newVars ∧
      newStmt = .packageMagicWand wand (renameStmts (ghostOf vars) count body) label newVars pos
  | .ite guard thenStmts elseStmts, newStmt =>
    ∃ newThen newElse, RenamesStmts thenStmts newThen ∧ RenamesStmts elseStmts newElse ∧
      newStmt = .ite guard newThen newElse
  | stmt, newStmt => newStmt = stmt

def RenamesStmts : List Stmt → List Stmt → Prop
  | [], newStmts => newStmts = []
  | stmt :: stmts, newStmts =>
    ∃ newStmt rest, RenamesStmt stmt newStmt ∧ RenamesStmts stmts rest ∧ newStmts = newStmt :: rest

end

/-- The variables of different package statements have different names. -/
def DisjointDecls (stmts : List Stmt) : Prop :=
  (Stmt.allPackages stmts).Pairwise fun package package' =>
    ∀ var ∈ package.1, ∀ var' ∈ package'.1, var.name ≠ var'.name

/-- The ghost variables of the method are renamed consistently. -/
structure ConsistentlyRenamed (method result : CfgMethod) : Prop where
  blocks : List.Forall₂ (fun block newBlock => newBlock.successor = block.successor ∧
    RenamesStmts block.stmts newBlock.stmts) method.basicBlocks result.basicBlocks
  others : result = { method with basicBlocks := result.basicBlocks }
  disjoint : DisjointDecls result.stmts

/-- The fixer reaches every occurrence of a ghost variable. -/
def ReachesGhosts (stmts : List Stmt) : Prop :=
  ∀ package ∈ Stmt.allPackages stmts, missedStmts (ghostOf package.1) package.2 = false

section Package

variable {order : IterOrder} {count : Nat} {vars : List LocalVar}

theorem renames_ofList (count : Nat) (vars : List LocalVar) :
    (⟨count, some (HashSet.ofList vars)⟩ : GhostVarFixer).renames = ghostOf vars := by
  funext var
  exact (HashSet.contains_foldl_insert vars HashMap.empty var).trans (Bool.false_or _)

theorem mem_of_mem_keys_foldl_insert (elems : List LocalVar) (set : HashSet LocalVar)
    {elem : LocalVar} (h : elem ∈ (elems.foldl HashSet.insert set).keys) :
    elem ∈ set.keys ∨ elem ∈ elems := by
  induction elems generalizing set with
  | nil => exact .inl h
  | cons head tail ih =>
    rcases ih (HashSet.insert set head) h with hset | htail
    · obtain ⟨entry, hentry, rfl⟩ := List.mem_map.mp hset
      rcases HashMap.mem_entries_insert hentry with ⟨old, hold, heq⟩ | hnew
      · exact .inl (heq ▸ List.mem_map_of_mem hold)
      · exact .inr (hnew ▸ List.mem_cons_self)
    · exact .inr (List.mem_cons_of_mem _ htail)

/-- The declarations that the fixer makes. -/
theorem renamesDecls (order : IterOrder) (count : Nat) (vars : List LocalVar) :
    RenamesDecls count vars ((order.iter count
      (HashSet.ofList vars : HashSet LocalVar).keys).map (fixName count)) where
  kept := by
    intro var hvar
    have hcontains : (HashSet.ofList vars : HashSet LocalVar).contains var = true := by
      refine (HashSet.contains_foldl_insert vars HashMap.empty var).trans ?_
      rw [Bool.or_eq_true, List.any_eq_true]
      exact .inr ⟨var, hvar, BEq.rfl⟩
    obtain ⟨_, hget⟩ := (HashMap.contains_iff _ _).mp hcontains
    obtain ⟨key, hkey, heq⟩ := HashMap.exists_key_of_get? hget
    refine ⟨fixName count key, List.mem_map_of_mem ((order.mem_iter _ _ _).mpr hkey), ?_⟩
    rw [fixName, fixName, ((LocalVar.beq_iff _ _).mp heq).1]
  only := by
    intro newVar hnewVar
    obtain ⟨key, hkey, rfl⟩ := List.mem_map.mp hnewVar
    refine ⟨key, ?_, rfl⟩
    rcases mem_of_mem_keys_foldl_insert vars HashMap.empty
      ((order.mem_iter _ _ _).mp hkey) with hempty | hmem
    · cases hempty
    · exact hmem

theorem fixName_name_inj {count count' : Nat} {var var' : LocalVar}
    (h : (fixName count var).name = (fixName count' var').name) : count = count' := by
  apply number_injective (var.name ++ "$p") (var'.name ++ "$p") 'p' (by decide)
  · simp only [fixName, ← String.append_assoc] at h
    rw [h]
  · rw [String.toList_append, List.getLast?_append]
    rfl
  · rw [String.toList_append, List.getLast?_append]
    rfl

/-- What the fixer makes of a package statement. -/
theorem foldStmt_packageMagicWand {wand : Expr} {body : List Stmt} {label : String} {pos : Position}
    {newStmt : Stmt}
    (h : (⟨count, none⟩ : GhostVarFixer).foldStmt order
      (.packageMagicWand wand body label vars pos) = some (newStmt, after)) :
    Stmt.allPackages body = [] ∧ after = ⟨count + 1, none⟩ ∧
      newStmt = .packageMagicWand wand (Stmt.mapAllExprs
        (GhostVarFixer.foldExpr ⟨count, some (HashSet.ofList vars)⟩) body) label
        ((order.iter count (HashSet.ofList vars : HashSet LocalVar).keys).map
          (fixName count)) pos := by
  simp only [GhostVarFixer.foldStmt, Option.bind_eq_bind, Option.bind_eq_some_iff,
    Option.some.injEq, Prod.mk.injEq, Prod.exists] at h
  obtain ⟨newBody, inner, hbody, unfixed, hunfixed, rfl, rfl⟩ := h
  rcases foldStmts_eq body hbody with ⟨hpackages, rfl, rfl⟩ | hnone
  · cases hunfixed
    rw [foldExpr_none _ rfl]
    exact ⟨hpackages, rfl, rfl⟩
  · rw [hnone] at hunfixed
    cases hunfixed

/-- A package statement is renamed consistently if and only if the fixer reaches every
occurrence in its body. -/
theorem renamesStmt_packageMagicWand_iff {wand : Expr} {body : List Stmt} {label : String}
    {pos : Position} {newStmt : Stmt}
    (h : (⟨count, none⟩ : GhostVarFixer).foldStmt order
      (.packageMagicWand wand body label vars pos) = some (newStmt, after)) :
    RenamesStmt (.packageMagicWand wand body label vars pos) newStmt ↔
      missedStmts (ghostOf vars) body = false := by
  obtain ⟨hpackages, -, rfl⟩ := foldStmt_packageMagicWand h
  have hbody := mapAllExprs_eq_renameStmts_iff ⟨count, some (HashSet.ofList vars)⟩ body hpackages
  rw [renames_ofList] at hbody
  rw [RenamesStmt]
  constructor
  · rintro ⟨count', newVars, hdecls, heq⟩
    simp only [Stmt.packageMagicWand.injEq, true_and, and_true] at heq
    obtain ⟨hsame, rfl⟩ := heq
    cases vars with
    | nil => exact missedStmts_of_no_ghost (fun _ => rfl) body
    | cons var vars =>
      obtain ⟨newVar, hnewVar, hname⟩ :=
        (renamesDecls order count (var :: vars)).kept var List.mem_cons_self
      obtain ⟨var', -, rfl⟩ := hdecls.only newVar hnewVar
      cases fixName_name_inj hname
      exact hbody.mp hsame
  · intro hreaches
    refine ⟨count, _, renamesDecls order count vars, ?_⟩
    rw [← hbody.mpr hreaches]

end Package

section Run

variable {order : IterOrder}

variable {count : Nat}

/-- The names in the package statements end with consecutive numbers. -/
def Numbered : Nat → List (List LocalVar × List Stmt) → Prop
  | _, [] => True
  | count, package :: packages =>
    (∀ newVar ∈ package.1, ∃ var, newVar.name = (fixName count var).name) ∧
      Numbered (count + 1) packages

theorem Numbered.append {packages' : List (List LocalVar × List Stmt)} (h : Numbered count packages)
    (h' : Numbered (count + packages.length) packages') :
    Numbered count (packages ++ packages') := by
  induction packages generalizing count with
  | nil => exact h'
  | cons package packages ih =>
    refine ⟨h.1, ih h.2 ?_⟩
    rw [List.length_cons] at h'
    rwa [Nat.add_assoc, Nat.add_comm 1]

theorem Numbered.number (h : Numbered count packages) {package : List LocalVar × List Stmt}
    (hmem : package ∈ packages) {newVar : LocalVar} (hnewVar : newVar ∈ package.1) :
    ∃ number var, count ≤ number ∧ newVar.name = (fixName number var).name := by
  induction packages generalizing count with
  | nil => cases hmem
  | cons first packages ih =>
    rcases List.mem_cons.mp hmem with rfl | hrest
    · obtain ⟨var, hname⟩ := h.1 newVar hnewVar
      exact ⟨count, var, Nat.le_refl _, hname⟩
    · obtain ⟨number, var, hle, hname⟩ := ih h.2 hrest
      exact ⟨number, var, by omega, hname⟩

theorem Numbered.pairwise (h : Numbered count packages) :
    packages.Pairwise fun package package' =>
      ∀ var ∈ package.1, ∀ var' ∈ package'.1, var.name ≠ var'.name := by
  induction packages generalizing count with
  | nil => exact .nil
  | cons package packages ih =>
    refine .cons ?_ (ih h.2)
    intro package' hpackage' newVar hnewVar newVar' hnewVar' heq
    obtain ⟨var, hname⟩ := h.1 newVar hnewVar
    obtain ⟨number, var', hle, hname'⟩ := h.2.number hpackage' hnewVar'
    rw [hname, hname'] at heq
    have := fixName_name_inj heq
    omega

/-- The result of the fixer on statements outside of package statements. -/
structure Folded (count : Nat) (packages newPackages : List (List LocalVar × List Stmt))
    (after : GhostVarFixer) : Prop where
  after_eq : after = ⟨count + packages.length, none⟩
  length_eq : newPackages.length = packages.length
  numbered : Numbered count newPackages

theorem Folded.append {newPackages packages' newPackages' : List (List LocalVar × List Stmt)}
    {between : GhostVarFixer} (h : Folded count packages newPackages between)
    (h' : Folded (count + packages.length) packages' newPackages' after) :
    Folded count (packages ++ packages') (newPackages ++ newPackages') after where
  after_eq := by
    rw [h'.after_eq, List.length_append, Nat.add_assoc]
  length_eq := by
    rw [List.length_append, List.length_append, h.length_eq, h'.length_eq]
  numbered := h.numbered.append (h.length_eq.symm ▸ h'.numbered)

mutual

theorem folded_foldStmt (stmt : Stmt) {count : Nat} {newStmt : Stmt} {after : GhostVarFixer}
    (h : (⟨count, none⟩ : GhostVarFixer).foldStmt order stmt = some (newStmt, after)) :
    Folded count stmt.packages newStmt.packages after ∧
      (RenamesStmt stmt newStmt ↔ ReachesGhosts [stmt]) := by
  have hsingle : Stmt.allPackages [stmt] = stmt.packages := List.append_nil _
  rw [ReachesGhosts, hsingle]
  cases stmt with
  | packageMagicWand wand body label vars pos =>
    have hiff := renamesStmt_packageMagicWand_iff h
    obtain ⟨-, rfl, rfl⟩ := foldStmt_packageMagicWand h
    refine ⟨⟨rfl, rfl, ?_, trivial⟩, ?_⟩
    · intro newVar hnewVar
      obtain ⟨var, -, rfl⟩ := (renamesDecls order count vars).only newVar hnewVar
      exact ⟨var, rfl⟩
    · rw [hiff, Stmt.packages, List.forall_mem_singleton]
  | ite guard thenStmts elseStmts =>
    simp only [GhostVarFixer.foldStmt, Option.bind_eq_bind, Option.bind_eq_some_iff,
      Option.some.injEq, Prod.mk.injEq, Prod.exists] at h
    obtain ⟨newThen, between, hthen, newElse, _, helse, rfl, rfl⟩ := h
    obtain ⟨hfolded, hiff⟩ := folded_foldStmts thenStmts hthen
    rw [hfolded.after_eq] at helse
    obtain ⟨hfolded', hiff'⟩ := folded_foldStmts elseStmts helse
    refine ⟨hfolded.append hfolded', ?_⟩
    rw [foldExpr_none _ rfl, RenamesStmt, Stmt.packages, List.forall_mem_append]
    change _ ↔ ReachesGhosts thenStmts ∧ ReachesGhosts elseStmts
    rw [← hiff, ← hiff']
    constructor
    · rintro ⟨_, _, hrenames, hrenames', heq⟩
      cases heq
      exact ⟨hrenames, hrenames'⟩
    · rintro ⟨hrenames, hrenames'⟩
      exact ⟨_, _, hrenames, hrenames', rfl⟩
  | _ =>
    cases h
    refine ⟨⟨rfl, rfl, trivial⟩, ?_⟩
    have hexprs : ∀ exprs : List Expr,
        exprs.map (GhostVarFixer.foldExpr ⟨count, none⟩) = exprs := fun exprs =>
      map_eq_self_iff.mpr fun expr _ => foldExpr_none _ rfl expr
    simp [RenamesStmt, Stmt.packages, Stmt.mapExprs, foldExpr_none, hexprs]

theorem folded_foldStmts (stmts : List Stmt) {count : Nat} {newStmts : List Stmt}
    {after : GhostVarFixer}
    (h : (⟨count, none⟩ : GhostVarFixer).foldStmts order stmts = some (newStmts, after)) :
    Folded count (Stmt.allPackages stmts) (Stmt.allPackages newStmts) after ∧
      (RenamesStmts stmts newStmts ↔ ReachesGhosts stmts) := by
  cases stmts with
  | nil =>
    cases h
    exact ⟨⟨rfl, rfl, trivial⟩, by simp [RenamesStmts, ReachesGhosts, Stmt.allPackages]⟩
  | cons stmt stmts =>
    simp only [GhostVarFixer.foldStmts, Option.bind_eq_bind, Option.bind_eq_some_iff,
      Option.some.injEq, Prod.mk.injEq, Prod.exists] at h
    obtain ⟨newStmt, between, hstmt, rest, _, hstmts, rfl, rfl⟩ := h
    obtain ⟨hfolded, hiff⟩ := folded_foldStmt stmt hstmt
    rw [hfolded.after_eq] at hstmts
    obtain ⟨hfolded', hiff'⟩ := folded_foldStmts stmts hstmts
    refine ⟨hfolded.append hfolded', ?_⟩
    have hsingle : Stmt.allPackages [stmt] = stmt.packages := List.append_nil _
    rw [ReachesGhosts, hsingle] at hiff
    rw [RenamesStmts, ReachesGhosts, Stmt.allPackages, List.forall_mem_append, ← hiff]
    change _ ↔ _ ∧ ReachesGhosts stmts
    rw [← hiff']
    constructor
    · rintro ⟨_, _, hrenames, hrenames', heq⟩
      cases heq
      exact ⟨hrenames, hrenames'⟩
    · rintro ⟨hrenames, hrenames'⟩
      exact ⟨_, _, hrenames, hrenames', rfl⟩

end

theorem allPackages_append (stmts stmts' : List Stmt) :
    Stmt.allPackages (stmts ++ stmts') = Stmt.allPackages stmts ++ Stmt.allPackages stmts' := by
  induction stmts with
  | nil => rfl
  | cons stmt stmts ih =>
    rw [List.cons_append, Stmt.allPackages, Stmt.allPackages, ih, List.append_assoc]

theorem folded_foldBlocks {blocks newBlocks : List CfgBlock}
    (h : GhostVarFixer.foldBlocks order ⟨count, none⟩ blocks = some (newBlocks, after)) :
    Folded count (Stmt.allPackages (blocks.flatMap (·.stmts)))
        (Stmt.allPackages (newBlocks.flatMap (·.stmts))) after ∧
      (List.Forall₂ (fun block newBlock => newBlock.successor = block.successor ∧
        RenamesStmts block.stmts newBlock.stmts) blocks newBlocks ↔
          ReachesGhosts (blocks.flatMap (·.stmts))) := by
  induction blocks generalizing count newBlocks with
  | nil =>
    cases h
    exact ⟨⟨rfl, rfl, trivial⟩, by simp [ReachesGhosts, Stmt.allPackages]⟩
  | cons block blocks ih =>
    simp only [GhostVarFixer.foldBlocks, Option.bind_eq_bind, Option.bind_eq_some_iff,
      Option.some.injEq, Prod.mk.injEq, Prod.exists] at h
    obtain ⟨newStmts, between, hstmts, rest, _, hrest, rfl, rfl⟩ := h
    obtain ⟨hfolded, hiff⟩ := folded_foldStmts block.stmts hstmts
    rw [hfolded.after_eq] at hrest
    obtain ⟨hfolded', hiff'⟩ := ih hrest
    rw [List.flatMap_cons, List.flatMap_cons, allPackages_append, allPackages_append]
    refine ⟨hfolded.append hfolded', ?_⟩
    have hall : ReachesGhosts (block.stmts ++ blocks.flatMap (·.stmts)) ↔
        ReachesGhosts block.stmts ∧ ReachesGhosts (blocks.flatMap (·.stmts)) := by
      simp only [ReachesGhosts, allPackages_append, List.forall_mem_append]
    rw [List.forall₂_cons, hiff', hall, ← hiff]
    exact and_congr_left' (and_iff_right rfl)

/-- The renaming is consistent if and only if the fixer reaches every occurrence of the
ghost variables. -/
theorem fixGhostVars_consistent_iff {method result : CfgMethod}
    (h : fixGhostVars order method = some result) :
    ConsistentlyRenamed method result ↔ ReachesGhosts method.stmts := by
  simp only [fixGhostVars, Option.bind_eq_bind, Option.bind_eq_some_iff,
    Option.some.injEq, Prod.exists] at h
  obtain ⟨newBlocks, after, hblocks, rfl⟩ := h
  obtain ⟨hfolded, hiff⟩ := folded_foldBlocks hblocks
  constructor
  · intro hconsistent
    exact hiff.mp hconsistent.blocks
  · intro hreaches
    exact ⟨hiff.mpr hreaches, rfl, hfolded.numbered.pairwise⟩

end Run

namespace Witness

def ghost : LocalVar := ⟨"_old$0", .int⟩

def wand : Expr := .magicWand (.const (.bool true) Position.default)
  (.const (.bool true) Position.default) none Position.default

def method (body : List Stmt) : CfgMethod :=
  { CfgMethod.new 0 "m" 0 [] [] [] with
    basicBlocks := [⟨[.packageMagicWand wand body "l0" [ghost] Position.default], .ret⟩] }

/-- The ghost variable is assigned and read. -/
def plainBody : List Stmt :=
  [.assign (Expr.ofLocal ghost) (Expr.ofInt 0) .ghost,
    .assert (Expr.eqCmp (Expr.ofLocal ghost) (Expr.ofInt 0)) Position.default]

/-- The ghost variable is assigned by a call. -/
def callBody : List Stmt := [.methodCall "builtin$havoc_int" [] [ghost]]

theorem fixGhostVars_consistent_plainBody :
    ∃ result, fixGhostVars IterOrder.identity (method plainBody) = some result ∧
      (ConsistentlyRenamed (method plainBody) result ↔ ReachesGhosts (method plainBody).stmts) :=
  ⟨_, rfl, fixGhostVars_consistent_iff rfl⟩

theorem not_consistent_callBody :
    ¬∀ order method result, fixGhostVars order method = some result →
      ConsistentlyRenamed method result := by
  intro h
  have hblocks := (h IterOrder.identity (method callBody) _ rfl).blocks
  obtain ⟨⟨-, newStmt, _, hrenames, -, heq⟩, -⟩ := List.forall₂_cons.mp hblocks
  obtain ⟨rfl, -⟩ := List.cons.inj heq
  obtain ⟨count, newVars, -, hstmt⟩ := hrenames
  have hbody := (Stmt.packageMagicWand.inj hstmt).2.1
  obtain ⟨hcall, -⟩ := List.cons.inj hbody
  have htargets := (Stmt.methodCall.inj hcall).2.2
  exact fixName_ne ghost (List.cons.inj htargets).1.symm

end Witness

end Prusti.Fixes

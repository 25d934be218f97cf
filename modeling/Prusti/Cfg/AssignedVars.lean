/-
The variables that are assigned in the blocks between two blocks.  They are havoced at
the head of a loop.
-/
import Mathlib.Data.List.Sort
import Prusti.Cfg.Method
import Prusti.Lib.Worklist

namespace Prusti.Cfg

open Prusti.Vir Prusti.Lib

/-- The sources of the edges into a block, one entry for each edge. -/
def CfgMethod.predecessors (method : CfgMethod) (target : Nat) : List Nat :=
  (List.range method.basicBlocks.length).flatMap fun index =>
    match method.basicBlocks[index]? with
    | some block => (block.successor.targets.filter (· = target)).map fun _ => index
    | none => []

/-- Add elements to a set.  Variables are compared with the equality of the source, which
looks at the names and at the kinds of the types. -/
def extend (vars : List LocalVar) (new : List LocalVar) : List LocalVar :=
  new.foldl (fun vars var => if vars.contains var then vars else vars ++ [var]) vars

def checkStmt (vars : List LocalVar) : Stmt → List LocalVar
  | .methodCall _ _ targets => extend vars targets
  | .assign (.localVar var _) _ _ => extend vars [var]
  | _ => vars

def checkBlock (vars : List LocalVar) (block : CfgBlock) : List LocalVar :=
  block.stmts.foldl checkStmt vars

/-- The loop of `collectAssignedVars`.  The blocks to visit are a stack, listed from its
top; `none` stands for a block that does not exist and for fuel that runs out. -/
def visitBlocks (method : CfgMethod) :
    Nat → List LocalVar → List Nat → List Nat → Option (List LocalVar)
  | _, vars, [], _ => some vars
  | 0, _, _ :: _, _ => none
  | fuel + 1, vars, current :: toVisit, marked => do
    let state := (method.predecessors current).foldl
      (fun state predecessor =>
        if predecessor ∈ state.2 then state
        else (predecessor :: state.1, state.2 ++ [predecessor]))
      (toVisit, marked)
    let block ← method.basicBlocks[current]?
    visitBlocks method fuel (checkBlock vars block) state.1 state.2

/-- The variables that are assigned in the blocks from which the start block is reached;
the end block is not passed. -/
def collectAssignedVars (method : CfgMethod) (startBlock endBlock : CfgBlockIndex) :
    Option (List LocalVar) :=
  let start := startBlock.blockIndex
  let end_ := endBlock.blockIndex
  (visitBlocks method (method.basicBlocks.length + 1) [] [start]
    [end_, start]).map fun vars =>
      vars.insertionSort fun a b => a.name ≤ b.name

mutual

/-- The variables that a statement assigns, also in its nested statements. -/
def assignedVars : Stmt → List LocalVar
  | .methodCall _ _ targets => targets
  | .assign (.localVar var _) _ _ => [var]
  | .packageMagicWand _ stmts _ _ _ => allAssignedVars stmts
  | .ite _ thenStmts elseStmts => allAssignedVars thenStmts ++ allAssignedVars elseStmts
  | _ => []

def allAssignedVars : List Stmt → List LocalVar
  | [] => []
  | stmt :: stmts => assignedVars stmt ++ allAssignedVars stmts

end

/-- The variables that a statement assigns itself. -/
def directlyAssigned : Stmt → List LocalVar
  | .methodCall _ _ targets => targets
  | .assign (.localVar var _) _ _ => [var]
  | _ => []

/-- The variables that the statements inside of a statement assign. -/
def nestedAssigned : Stmt → List LocalVar
  | .packageMagicWand _ stmts _ _ _ => allAssignedVars stmts
  | .ite _ thenStmts elseStmts => allAssignedVars thenStmts ++ allAssignedVars elseStmts
  | _ => []

theorem assignedVars_eq (stmt : Stmt) :
    assignedVars stmt = directlyAssigned stmt ++ nestedAssigned stmt := by
  unfold directlyAssigned
  split
  · simp [assignedVars, nestedAssigned]
  · simp [assignedVars, nestedAssigned]
  · next hcall hassign =>
      cases stmt with
      | methodCall => exact absurd rfl (hcall _ _ _)
      | assign lhs =>
        cases lhs with
        | localVar => exact absurd rfl (hassign _ _ _ _)
        | _ => simp [assignedVars, nestedAssigned]
      | _ => simp [assignedVars, nestedAssigned]

section Blocks

variable {method : CfgMethod} {start end_ bb : Nat} {var : LocalVar}
  {vars : List LocalVar} {find : Stmt → List LocalVar}

namespace CfgMethod

variable (method)

/-- An edge between two blocks. -/
def HasEdge (source target : Nat) : Prop :=
  ∃ block, method.basicBlocks[source]? = some block ∧ target ∈ block.successor.targets

/-- There is a path from `bb` to `start` that does not pass through `end_`. -/
def ReachesAvoiding (start end_ bb : Nat) : Prop :=
  start ≠ end_ ∧ bb ≠ end_ ∧
    Relation.ReflTransGen (fun u v => method.HasEdge u v ∧ u ≠ end_ ∧ v ≠ end_) bb start

/-- There is a path from `bb` to `start` on which `end_` may only be the last block. -/
def WalksBack (start end_ bb : Nat) : Prop :=
  Relation.ReflTransGen (fun u v => method.HasEdge u v ∧ u ≠ end_) bb start

/-- A variable is assigned in a block, by the given way to find assignments. -/
def Assigns (find : Stmt → List LocalVar) (bb : Nat) (var : LocalVar) : Prop :=
  ∃ block, method.basicBlocks[bb]? = some block ∧
    ∃ stmt ∈ block.stmts, (find stmt).contains var = true

variable {method}

theorem mem_predecessors_iff : bb ∈ method.predecessors start ↔ method.HasEdge bb start := by
  rw [predecessors, List.mem_flatMap]
  constructor
  · rintro ⟨index, -, hmem⟩
    split at hmem
    · next block hblock =>
        obtain ⟨target, htarget, rfl⟩ := List.mem_map.mp hmem
        obtain ⟨htarget, heq⟩ := List.mem_filter.mp htarget
        exact ⟨block, hblock, of_decide_eq_true heq ▸ htarget⟩
    · cases hmem
  · rintro ⟨block, hblock, htarget⟩
    refine ⟨bb, List.mem_range.mpr (List.getElem?_eq_some_iff.mp hblock).1, ?_⟩
    rw [hblock]
    exact List.mem_map.mpr ⟨start, List.mem_filter.mpr ⟨htarget, decide_eq_true rfl⟩, rfl⟩

theorem lt_of_hasEdge (h : method.HasEdge bb start) : bb < method.basicBlocks.length := by
  obtain ⟨block, hblock, -⟩ := h
  exact (List.getElem?_eq_some_iff.mp hblock).1

theorem reachesAvoiding_iff :
    method.ReachesAvoiding start end_ bb ↔ start ≠ end_ ∧ method.WalksBack start end_ bb := by
  constructor
  · rintro ⟨hne, -, hpath⟩
    exact ⟨hne, Relation.ReflTransGen.mono (fun u v h => ⟨h.1, h.2.1⟩) _ _ hpath⟩
  · rintro ⟨hne, hpath⟩
    refine ⟨hne, ?_⟩
    induction hpath using Relation.ReflTransGen.head_induction_on with
    | refl => exact ⟨hne, .refl⟩
    | head hedge _ ih => exact ⟨hedge.2, .head ⟨hedge.1, hedge.2, ih.1⟩ ih.2⟩

theorem assigns_assignedVars_iff :
    method.Assigns assignedVars bb var ↔
      method.Assigns directlyAssigned bb var ∨ method.Assigns nestedAssigned bb var := by
  constructor
  · rintro ⟨block, hblock, stmt, hstmt, hvar⟩
    rw [assignedVars_eq, List.contains_append, Bool.or_eq_true] at hvar
    exact hvar.imp (fun h => ⟨block, hblock, stmt, hstmt, h⟩)
      fun h => ⟨block, hblock, stmt, hstmt, h⟩
  · rintro (⟨block, hblock, stmt, hstmt, hvar⟩ | ⟨block, hblock, stmt, hstmt, hvar⟩)
    · refine ⟨block, hblock, stmt, hstmt, ?_⟩
      rw [assignedVars_eq, List.contains_append, hvar, Bool.true_or]
    · refine ⟨block, hblock, stmt, hstmt, ?_⟩
      rw [assignedVars_eq, List.contains_append, hvar, Bool.or_true]

end CfgMethod

theorem contains_extend (new : List LocalVar) :
    (extend vars new).contains var = true ↔ vars.contains var = true ∨ new.contains var = true := by
  induction new generalizing vars with
  | nil => simp [extend]
  | cons first new ih =>
    have hstep : extend vars (first :: new) =
        extend (if vars.contains first then vars else vars ++ [first]) new := rfl
    rw [hstep, ih, List.contains_cons, Bool.or_eq_true, ← or_assoc]
    refine or_congr_left ?_
    split
    · next hold =>
        refine ⟨.inl, fun h => h.elim id fun heq => ?_⟩
        rw [List.contains_congr heq]
        exact hold
    · rw [List.contains_append, Bool.or_eq_true]
      simp

theorem contains_checkStmt (stmt : Stmt) :
    (checkStmt vars stmt).contains var = true ↔
      vars.contains var = true ∨ (directlyAssigned stmt).contains var = true := by
  unfold checkStmt directlyAssigned
  split
  · exact contains_extend _
  · exact contains_extend _
  · simp

theorem contains_checkBlock (block : CfgBlock) :
    (checkBlock vars block).contains var = true ↔ vars.contains var = true ∨
      ∃ stmt ∈ block.stmts, (directlyAssigned stmt).contains var = true := by
  unfold checkBlock
  induction block.stmts generalizing vars with
  | nil => simp
  | cons stmt stmts ih =>
    rw [List.foldl_cons, ih, contains_checkStmt, List.exists_mem_cons_iff, or_assoc]

/-- The loop is a walk against the edges that checks every block it expands. -/
theorem visitBlocks_eq {fuel : Nat} {stack marked left marked' : List Nat}
    (hwalk : walk method.predecessors (fun _ => false) fuel stack marked = some (left, marked'))
    (hvalid : ∀ bb ∈ left, bb < method.basicBlocks.length) :
    ∃ vars', visitBlocks method fuel vars stack marked = some vars' ∧
      ∀ var, vars'.contains var = true ↔ vars.contains var = true ∨
        ∃ bb ∈ left, method.Assigns directlyAssigned bb var := by
  induction fuel generalizing vars stack marked left with
  | zero =>
    cases stack with
    | nil =>
      cases hwalk
      exact ⟨vars, rfl, fun var => by simp⟩
    | cons => cases hwalk
  | succ fuel ih =>
    cases stack with
    | nil =>
      cases hwalk
      exact ⟨vars, rfl, fun var => by simp⟩
    | cons current stack =>
      simp only [walk, Option.map_eq_some_iff] at hwalk
      obtain ⟨⟨left', marked''⟩, hrest, heq⟩ := hwalk
      cases heq
      obtain ⟨block, hcurrent⟩ : ∃ block, method.basicBlocks[current]? = some block :=
        ⟨_, List.getElem?_eq_getElem (hvalid current List.mem_cons_self)⟩
      obtain ⟨vars', hvars', hmem⟩ := @ih (checkBlock vars block) _ _ _ hrest
        fun bb hbb => hvalid bb (List.mem_cons_of_mem _ hbb)
      refine ⟨vars', ?_, ?_⟩
      · rw [← hvars', visitBlocks, hcurrent]
        rfl
      · intro var
        have hassigns : method.Assigns directlyAssigned current var ↔
            ∃ stmt ∈ block.stmts, (directlyAssigned stmt).contains var = true := by
          rw [CfgMethod.Assigns, hcurrent]
          simp
        rw [hmem, contains_checkBlock, or_assoc, List.exists_mem_cons_iff, hassigns]

/-- A path need not come back to where it starts. -/
theorem reflTransGen_ne_start {V : Type} {r : V → V → Prop} {a b : V}
    (h : Relation.ReflTransGen r a b) :
    Relation.ReflTransGen (fun u v => r u v ∧ v ≠ a) a b := by
  classical
  induction h with
  | refl => exact .refl
  | @tail u v _ hstep ih =>
    by_cases hv : v = a
    · exact hv ▸ .refl
    · exact ih.tail ⟨hstep, hv⟩

/-- The walk expands the blocks from which there is a path back. -/
theorem freshSteps_iff :
    Relation.ReflTransGen (FreshStep method.predecessors (fun _ => false) [end_, start])
      start bb ↔ method.WalksBack start end_ bb := by
  have hback : method.WalksBack start end_ bb ↔
      Relation.ReflTransGen (fun v u => method.HasEdge u v ∧ u ≠ end_) start bb :=
    Relation.reflTransGen_swap.symm
  rw [hback]
  constructor
  · refine Relation.ReflTransGen.mono ?_ _ _
    rintro u v ⟨hedge, hnew, -⟩
    exact ⟨CfgMethod.mem_predecessors_iff.mp hedge, fun heq => hnew (by simp [heq])⟩
  · intro hpath
    refine Relation.ReflTransGen.mono ?_ _ _ (reflTransGen_ne_start hpath)
    rintro u v ⟨⟨hedge, hend⟩, hstart⟩
    exact ⟨CfgMethod.mem_predecessors_iff.mpr hedge, by simp [hend, hstart], rfl⟩

/-- The variables that get collected. -/
theorem exists_collectAssignedVars {startBlock endBlock : CfgBlockIndex}
    (hstart : startBlock.blockIndex < method.basicBlocks.length) :
    ∃ vars, collectAssignedVars method startBlock endBlock = some vars ∧
      ∀ var, vars.contains var = true ↔
        ∃ bb, method.WalksBack startBlock.blockIndex endBlock.blockIndex bb ∧
          method.Assigns directlyAssigned bb var := by
  have hnext : ∀ bb, method.predecessors bb ⊆ List.range method.basicBlocks.length := by
    intro bb pred hpred
    exact List.mem_range.mpr (CfgMethod.lt_of_hasEdge (CfgMethod.mem_predecessors_iff.mp hpred))
  obtain ⟨⟨left, marked⟩, hwalk⟩ := @exists_walk _ _ method.predecessors (fun _ => false)
    (method.basicBlocks.length + 1) [startBlock.blockIndex]
    [endBlock.blockIndex, startBlock.blockIndex] _ hnext (by
      have hfilter := List.length_filter_le (· ∉ [endBlock.blockIndex, startBlock.blockIndex])
        (List.range method.basicBlocks.length)
      rw [List.length_range] at hfilter
      rw [unmarked, List.length_singleton]
      omega)
  have hleft : ∀ bb, bb ∈ left ↔ method.WalksBack startBlock.blockIndex endBlock.blockIndex bb := by
    intro bb
    rw [mem_left_iff hwalk, ← freshSteps_iff]
    simp
  have hvalid : ∀ bb ∈ left, bb < method.basicBlocks.length := by
    intro bb hbb
    rcases Relation.ReflTransGen.cases_head ((hleft bb).mp hbb) with rfl | ⟨next, hedge, -⟩
    · exact hstart
    · exact CfgMethod.lt_of_hasEdge hedge.1
  obtain ⟨vars, hvars, hmem⟩ := @visitBlocks_eq method [] _ _ _ _ _ hwalk hvalid
  refine ⟨vars.insertionSort fun a b => a.name ≤ b.name, ?_, fun var => ?_⟩
  · rw [collectAssignedVars, hvars, Option.map_some]
  have hsorted : (vars.insertionSort fun a b => a.name ≤ b.name).contains var = vars.contains var :=
    List.Perm.contains_eq (List.perm_insertionSort _ _)
  rw [hsorted, hmem]
  simp [hleft]

/-- The collected variables are those that are assigned in the blocks from which the start
block is reached without passing through the end block, exactly when no variable is
assigned in nested statements only; the two blocks have to be different, unless nothing is
assigned. -/
theorem collectAssignedVars_exact_iff {startBlock endBlock : CfgBlockIndex}
    (hstart : startBlock.blockIndex < method.basicBlocks.length) :
    (∃ vars, collectAssignedVars method startBlock endBlock = some vars ∧
      ∀ var, vars.contains var = true ↔
        ∃ bb, method.ReachesAvoiding startBlock.blockIndex endBlock.blockIndex bb ∧
          method.Assigns assignedVars bb var) ↔
      (startBlock.blockIndex ≠ endBlock.blockIndex → ∀ bb var,
        method.ReachesAvoiding startBlock.blockIndex endBlock.blockIndex bb →
        method.Assigns nestedAssigned bb var →
        ∃ bb', method.ReachesAvoiding startBlock.blockIndex endBlock.blockIndex bb' ∧
          method.Assigns directlyAssigned bb' var) ∧
      (startBlock.blockIndex = endBlock.blockIndex → ∀ bb var,
        method.WalksBack startBlock.blockIndex endBlock.blockIndex bb →
        ¬ method.Assigns directlyAssigned bb var) := by
  obtain ⟨vars, hvars, hmem⟩ := @exists_collectAssignedVars method _ endBlock hstart
  simp only [hvars, Option.some.injEq, exists_eq_left', hmem]
  by_cases hne : startBlock.blockIndex = endBlock.blockIndex
  · simp only [CfgMethod.ReachesAvoiding, hne, ne_eq, not_true_eq_false, false_and,
      exists_false, iff_false, not_exists, not_and, false_imp_iff, forall_const, true_and]
    exact forall_comm
  · have hreach : ∀ bb,
        method.ReachesAvoiding startBlock.blockIndex endBlock.blockIndex bb ↔
          method.WalksBack startBlock.blockIndex endBlock.blockIndex bb := fun bb =>
      CfgMethod.reachesAvoiding_iff.trans (and_iff_right hne)
    simp only [hreach, CfgMethod.assigns_assignedVars_iff, hne, ne_eq, not_false_eq_true,
      forall_const, false_imp_iff, and_true]
    constructor
    · intro h bb var hbb hnested
      exact (h var).mpr ⟨bb, hbb, .inr hnested⟩
    · intro h var
      constructor
      · rintro ⟨bb, hbb, hdirect⟩
        exact ⟨bb, hbb, .inl hdirect⟩
      · rintro ⟨bb, hbb, hdirect | hnested⟩
        · exact ⟨bb, hbb, hdirect⟩
        · exact h bb var hbb hnested

end Blocks

namespace Witness

def counter : LocalVar := ⟨"x", .int⟩

def assignCounter : Stmt := .assign (.localVar counter Position.default) (Expr.ofInt 1) .copy

/-- Two blocks, the first one the head of a loop and the second one the end of its body. -/
def twoBlocks (stmts : List Stmt) : CfgMethod where
  uuid := 0
  methodName := "m"
  formalArgCount := 0
  formalReturns := []
  localVars := [counter]
  labels := []
  reservedLabels := []
  basicBlocks := [⟨[], .goto ⟨0, 1⟩⟩, ⟨stmts, .ret⟩]
  basicBlocksLabels := ["start", "end_body"]
  freshLabelIndex := 0

theorem hasEdge_twoBlocks {stmts : List Stmt} {u v : Nat}
    (h : (twoBlocks stmts).HasEdge u v) : u = 0 ∧ v = 1 := by
  obtain ⟨block, hblock, htarget⟩ := h
  match u, hblock with
  | 0, hblock =>
    cases hblock
    exact ⟨rfl, List.mem_singleton.mp htarget⟩
  | 1, hblock =>
    cases hblock
    cases htarget
  | _ + 2, hblock => cases hblock

/-- The variable is assigned in one branch of an `if` of the start block, and not collected. -/
theorem collectAssignedVars_misses_nested :
    (∀ u v, (twoBlocks [.ite (Expr.ofBool true) [assignCounter] []]).HasEdge u v → u < v) ∧
    collectAssignedVars (twoBlocks [.ite (Expr.ofBool true) [assignCounter] []])
      ⟨0, 1⟩ ⟨0, 0⟩ = some [] ∧
    (twoBlocks [.ite (Expr.ofBool true) [assignCounter] []]).ReachesAvoiding 1 0 1 ∧
    (twoBlocks [.ite (Expr.ofBool true) [assignCounter] []]).Assigns assignedVars 1 counter := by
  refine ⟨?_, rfl, ⟨by decide, by decide, .refl⟩, ⟨_, rfl, _, List.mem_singleton_self _, rfl⟩⟩
  intro u v h
  obtain ⟨rfl, rfl⟩ := hasEdge_twoBlocks h
  exact Nat.zero_lt_one

theorem collectAssignedVars_exact_iff_twoBlocks :
    (∃ vars, collectAssignedVars (twoBlocks [assignCounter]) ⟨0, 1⟩ ⟨0, 0⟩ = some vars ∧
      ∀ var, vars.contains var = true ↔
        ∃ bb, (twoBlocks [assignCounter]).ReachesAvoiding 1 0 bb ∧
          (twoBlocks [assignCounter]).Assigns assignedVars bb var) ↔
      (1 ≠ 0 → ∀ bb var, (twoBlocks [assignCounter]).ReachesAvoiding 1 0 bb →
        (twoBlocks [assignCounter]).Assigns nestedAssigned bb var →
        ∃ bb', (twoBlocks [assignCounter]).ReachesAvoiding 1 0 bb' ∧
          (twoBlocks [assignCounter]).Assigns directlyAssigned bb' var) ∧
      (1 = 0 → ∀ bb var, (twoBlocks [assignCounter]).WalksBack 1 0 bb →
        ¬ (twoBlocks [assignCounter]).Assigns directlyAssigned bb var) :=
  @collectAssignedVars_exact_iff (twoBlocks [assignCounter]) ⟨0, 1⟩ ⟨0, 0⟩ Nat.one_lt_two

end Witness

end Prusti.Cfg

/-
The names of a method: those of its local variables and formal returns, its labels and
the labels of its blocks.  The operations that add a name check that it is fresh, except
for the one that adds a block; the labels in the nodes of a reborrowing DAG are not seen.
-/
import Prusti.Cfg.Exprs
import Mathlib.Data.List.Induction

namespace Prusti.Cfg

open Prusti.Vir

variable {label name : String} {stmts : List Stmt} {stmt : Stmt} {index : CfgBlockIndex}

/-- A `Label` statement with the label occurs in a statement, in the nodes of DAGs only
if `dags` is set. -/
inductive LabelIn (dags : Bool) (label : String) : Stmt → Prop where
  | label : LabelIn dags label (.label label)
  | wand {wand stmts name vars pos stmt} (hmem : stmt ∈ stmts) (h : LabelIn dags label stmt) :
      LabelIn dags label (.packageMagicWand wand stmts name vars pos)
  | thenBranch {guard thenStmts elseStmts stmt} (hmem : stmt ∈ thenStmts)
      (h : LabelIn dags label stmt) : LabelIn dags label (.ite guard thenStmts elseStmts)
  | elseBranch {guard thenStmts elseStmts stmt} (hmem : stmt ∈ elseStmts)
      (h : LabelIn dags label stmt) : LabelIn dags label (.ite guard thenStmts elseStmts)
  | dag {nodeStmts stmt} (hdags : dags = true) (hmem : stmt ∈ nodeStmts)
      (h : LabelIn dags label stmt) : LabelIn dags label (.expireBorrows nodeStmts)

theorem mem_gatherAllLabels :
    label ∈ gatherAllLabels stmts ↔ ∃ stmt ∈ stmts, label ∈ gatherLabels stmt := by
  induction stmts with
  | nil => simp [gatherAllLabels]
  | cons stmt stmts ih => simp [gatherAllLabels, ih]

theorem mem_gatherLabels_of_labelIn (h : LabelIn false label stmt) : label ∈ gatherLabels stmt := by
  induction h with
  | label => exact List.mem_singleton_self label
  | wand hmem _ ih => exact mem_gatherAllLabels.mpr ⟨_, hmem, ih⟩
  | thenBranch hmem _ ih => exact List.mem_append_left _ (mem_gatherAllLabels.mpr ⟨_, hmem, ih⟩)
  | elseBranch hmem _ ih => exact List.mem_append_right _ (mem_gatherAllLabels.mpr ⟨_, hmem, ih⟩)
  | dag hdags => cases hdags

theorem labelIn_of_mem_gatherLabels {label : String} (stmt : Stmt)
    (h : label ∈ gatherLabels stmt) : LabelIn false label stmt := by
  cases stmt with
  | label other =>
    cases List.mem_singleton.mp h
    exact .label
  | packageMagicWand wand stmts name vars pos =>
    obtain ⟨stmt, hmem, hlabel⟩ := mem_gatherAllLabels.mp h
    exact .wand hmem (labelIn_of_mem_gatherLabels stmt hlabel)
  | ite guard thenStmts elseStmts =>
    rcases List.mem_append.mp h with hthen | helse
    · obtain ⟨stmt, hmem, hlabel⟩ := mem_gatherAllLabels.mp hthen
      exact .thenBranch hmem (labelIn_of_mem_gatherLabels stmt hlabel)
    · obtain ⟨stmt, hmem, hlabel⟩ := mem_gatherAllLabels.mp helse
      exact .elseBranch hmem (labelIn_of_mem_gatherLabels stmt hlabel)
  | _ => cases h

/-- The labels outside of the DAGs are gathered, and only these. -/
theorem mem_gatherLabels_iff : label ∈ gatherLabels stmt ↔ LabelIn false label stmt :=
  ⟨labelIn_of_mem_gatherLabels stmt, mem_gatherLabels_of_labelIn⟩

namespace CfgMethod

/-- The names of all tables. -/
def declaredNames (method : CfgMethod) : List String :=
  method.formalReturns.map (·.name) ++ method.localVars.map (·.name) ++
    method.labels ++ method.basicBlocksLabels

def addLocalVar (method : CfgMethod) (name : String) (typ : Typ) : Option CfgMethod :=
  if method.isFreshLocalName name then
    some { method with localVars := method.localVars ++ [⟨name, typ⟩] }
  else none

def addFormalReturn (method : CfgMethod) (name : String) (typ : Typ) : Option CfgMethod :=
  if method.isFreshLocalName name then
    some { method with formalReturns := method.formalReturns ++ [⟨name, typ⟩] }
  else none

/-- Among one more candidates than there are names, one is fresh. -/
def generateFreshLocalVarName (method : CfgMethod) (freshVarIndex : Nat) : Option (String × Nat) :=
  method.findFreshName "__t" (method.usedNames.length + 1) freshVarIndex

end CfgMethod

/-- A method under construction, with the index of its next fresh variable. -/
structure MethodBuilder where
  method : CfgMethod
  freshVarIndex : Nat

/-- The operations that add names, statements or blocks. -/
inductive NameOp where
  | addLocalVar (name : String) (typ : Typ)
  | addFreshLocalVar (typ : Typ)
  | addFormalReturn (name : String) (typ : Typ)
  | getFreshLabelName
  | addStmt (index : CfgBlockIndex) (stmt : Stmt)
  | addStmts (index : CfgBlockIndex) (stmts : List Stmt)
  | addBlock (label : String) (stmts : List Stmt)

namespace MethodBuilder

/-- The builder of a new method. -/
def new (uuid : Nat) (methodName : String) (formalArgCount : Nat)
    (formalReturns localVars : List LocalVar) (reservedLabels : List String) :
    MethodBuilder :=
  ⟨CfgMethod.new uuid methodName formalArgCount formalReturns localVars reservedLabels, 0⟩

def addFreshLocalVar (builder : MethodBuilder) (typ : Typ) : Option MethodBuilder :=
  (builder.method.generateFreshLocalVarName builder.freshVarIndex).map fun found =>
    ⟨{ builder.method with
      localVars := builder.method.localVars ++ [⟨found.1, typ⟩] }, found.2⟩

def setMethod (builder : MethodBuilder) (method : CfgMethod) : MethodBuilder :=
  { builder with method := method }

/-- Perform an operation; `none` stands for a failed assertion or an index out of
bounds. -/
def perform (chars : CharClass) (builder : MethodBuilder) : NameOp → Option MethodBuilder
  | .addLocalVar name typ => (builder.method.addLocalVar name typ).map builder.setMethod
  | .addFreshLocalVar typ => builder.addFreshLocalVar typ
  | .addFormalReturn name typ => (builder.method.addFormalReturn name typ).map builder.setMethod
  | .getFreshLabelName =>
    builder.method.getFreshLabelName.map fun found => builder.setMethod found.2
  | .addStmt index stmt => (builder.method.addStmt index stmt).map builder.setMethod
  | .addStmts index stmts => (builder.method.addStmts index stmts).map builder.setMethod
  | .addBlock label stmts =>
    (builder.method.addBlock chars label stmts).map fun added =>
      builder.setMethod added.2

def performAll (chars : CharClass) (builder : MethodBuilder) (ops : List NameOp) :
    Option MethodBuilder :=
  ops.foldlM (perform chars) builder

theorem performAll_concat (chars : CharClass) (builder : MethodBuilder)
    (ops : List NameOp) (op : NameOp) :
    builder.performAll chars (ops ++ [op]) =
      (builder.performAll chars ops).bind fun middle => middle.perform chars op := by
  simp [performAll, List.foldlM_append]

end MethodBuilder

namespace CfgMethod

/-- No name is declared twice, and every label that occurs in the blocks is declared. -/
structure DistinctNames (method : CfgMethod) : Prop where
  nodup : method.declaredNames.Nodup
  recorded : ∀ stmt ∈ method.stmts, ∀ label, LabelIn true label stmt → label ∈ method.labels

variable {method method' : CfgMethod}

theorem isFreshLocalName_iff_not_mem (method : CfgMethod) (name : String) :
    method.isFreshLocalName name = true ↔ name ∉ method.declaredNames := by
  rw [isFreshLocalName_iff]
  simp only [declaredNames, List.mem_append, List.mem_map, not_or, not_exists, not_and, and_assoc]

/-- A fresh name is neither declared nor a label in the blocks. -/
theorem DistinctNames.fresh (h : method.DistinctNames)
    (hfresh : method.isFreshLocalName name = true) :
    name ∉ method.declaredNames ∧ ∀ stmt ∈ method.stmts, ¬LabelIn true name stmt := by
  rw [isFreshLocalName_iff_not_mem] at hfresh
  refine ⟨hfresh, fun stmt hstmt hlabel => hfresh ?_⟩
  exact List.mem_append_left _ (List.mem_append_right _ (h.recorded stmt hstmt name hlabel))

/-- New names that are fresh stay distinct from the other ones. -/
theorem nodup_of_perm {names : List String} (h : method.declaredNames.Nodup)
    (hperm : method'.declaredNames.Perm (names ++ method.declaredNames))
    (hfresh : method.FreshAll names) : method'.declaredNames.Nodup := by
  rw [hperm.nodup_iff, List.nodup_append]
  refine ⟨hfresh.1, h, ?_⟩
  rintro name hname _ hdeclared rfl
  exact (isFreshLocalName_iff_not_mem method name).mp (hfresh.2 name hname) hdeclared

theorem freshAll_singleton : method.FreshAll [name] ↔ method.isFreshLocalName name = true := by
  simp [FreshAll]

theorem mem_stmts_addStmt {other : Stmt} (h : method.addStmt index stmt = some method') :
    other ∈ method'.stmts ↔ other = stmt ∨ other ∈ method.stmts := by
  simp only [addStmt, Option.bind_eq_bind, Option.bind_eq_some_iff, Option.some.injEq] at h
  obtain ⟨labelled, hlabelled, block, hblock, rfl⟩ := h
  obtain ⟨-, rfl⟩ := (addLabels_eq_some_iff _ _ _).mp hlabelled
  change method.basicBlocks[_]? = _ at hblock
  obtain ⟨hindex, hget⟩ := List.getElem?_eq_some_iff.mp hblock
  obtain ⟨before, after, hsplit, hlength, -⟩ := @List.exists_of_set _ _ block _ hindex
  simp only [stmts, withLabels]
  rw [← hlength, hsplit, hget]
  simp [or_left_comm]

theorem mem_stmts_addStmts {other : Stmt} (h : method.addStmts index stmts = some method') :
    other ∈ method'.stmts ↔ other ∈ stmts ∨ other ∈ method.stmts := by
  induction stmts generalizing method with
  | nil =>
    cases h
    simp
  | cons stmt stmts ih =>
    simp only [CfgMethod.addStmts, List.foldlM_cons, Option.bind_eq_bind,
      Option.bind_eq_some_iff] at h
    obtain ⟨middle, hmiddle, hrest⟩ := h
    rw [ih hrest, mem_stmts_addStmt hmiddle, List.mem_cons]
    tauto

theorem addStmts_singleton (method : CfgMethod) (index : CfgBlockIndex) (stmt : Stmt) :
    method.addStmts index [stmt] = method.addStmt index stmt := by
  simp [addStmts]

namespace DistinctNames

theorem addLocalVar (h : method.DistinctNames) {typ : Typ}
    (hadd : method.addLocalVar name typ = some method') : method'.DistinctNames := by
  unfold CfgMethod.addLocalVar at hadd
  split at hadd
  · next hfresh =>
      cases hadd
      refine ⟨nodup_of_perm h.nodup (List.perm_iff_count.mpr fun other => ?_)
        (freshAll_singleton.mpr hfresh), h.recorded⟩
      simp only [declaredNames, List.map_append, List.map_cons, List.map_nil, List.count_append]
      omega
  · cases hadd

theorem addFormalReturn (h : method.DistinctNames) {typ : Typ}
    (hadd : method.addFormalReturn name typ = some method') : method'.DistinctNames := by
  unfold CfgMethod.addFormalReturn at hadd
  split at hadd
  · next hfresh =>
      cases hadd
      refine ⟨nodup_of_perm h.nodup (List.perm_iff_count.mpr fun other => ?_)
        (freshAll_singleton.mpr hfresh), h.recorded⟩
      simp only [declaredNames, List.map_append, List.map_cons, List.map_nil, List.count_append]
      omega
  · cases hadd

end DistinctNames

/-- Added statements keep the names distinct if and only if every label in them is declared
already or occurs in them outside of the DAGs. -/
theorem distinctNames_addStmts_iff (h : method.DistinctNames)
    (hadd : method.addStmts index stmts = some method') :
    method'.DistinctNames ↔ ∀ stmt ∈ stmts, ∀ label, LabelIn true label stmt →
      label ∈ method.labels ∨ ∃ other ∈ stmts, LabelIn false label other := by
  have hextends := extends_of_addStmts hadd
  have hlabels : ∀ label, label ∈ method'.labels ↔
      label ∈ method.labels ∨ ∃ other ∈ stmts, LabelIn false label other := by
    intro label
    rw [hextends.eq]
    simp only [withLabels, List.mem_append, List.mem_flatMap, mem_gatherLabels_iff]
  constructor
  · intro h' stmt hstmt label hlabel
    exact (hlabels label).mp
      (h'.recorded stmt ((mem_stmts_addStmts hadd).mpr (.inl hstmt)) label hlabel)
  · intro hnew
    refine ⟨nodup_of_perm h.nodup (List.perm_iff_count.mpr fun other => ?_) hextends.fresh, ?_⟩
    · rw [hextends.eq]
      simp only [declaredNames, withLabels, List.count_append]
      omega
    · intro stmt hstmt label hlabel
      rw [hlabels]
      rcases (mem_stmts_addStmts hadd).mp hstmt with hadded | hold
      · exact hnew stmt hadded label hlabel
      · exact .inl (h.recorded stmt hold label hlabel)

/-- What a new block adds. -/
theorem addBlock_eq {chars : CharClass}
    (h : method.addBlock chars label stmts = some (index, method')) :
    method'.declaredNames.Perm ([label] ++ method.declaredNames) ∧
      method'.labels = method.labels ∧ method'.stmts = method.stmts ++ stmts := by
  unfold addBlock at h
  split at h
  · cases h
    refine ⟨List.perm_iff_count.mpr fun other => ?_, rfl, ?_⟩
    · simp only [declaredNames, List.count_append]
      omega
    · simp [CfgMethod.stmts]
  · cases h

/-- A new block keeps the names distinct if and only if its label is fresh and the
labels in its statements are declared already. -/
theorem distinctNames_addBlock_iff (h : method.DistinctNames) {chars : CharClass}
    (hadd : method.addBlock chars label stmts = some (index, method')) :
    method'.DistinctNames ↔ label ∉ method.declaredNames ∧
      ∀ stmt ∈ stmts, ∀ other, LabelIn true other stmt → other ∈ method.labels := by
  obtain ⟨hperm, hlabels, hstmts⟩ := addBlock_eq hadd
  constructor
  · intro h'
    have hnodup := hperm.nodup_iff.mp h'.nodup
    rw [List.singleton_append, List.nodup_cons] at hnodup
    refine ⟨hnodup.1, fun stmt hstmt other hother => ?_⟩
    rw [← hlabels]
    exact h'.recorded stmt (hstmts ▸ List.mem_append_right _ hstmt) other hother
  · rintro ⟨hfresh, hdeclared⟩
    refine ⟨nodup_of_perm h.nodup hperm
      (freshAll_singleton.mpr ((isFreshLocalName_iff_not_mem _ _).mpr hfresh)), ?_⟩
    intro stmt hstmt other hother
    rw [hlabels]
    rw [hstmts] at hstmt
    rcases List.mem_append.mp hstmt with hold | hnew
    · exact h.recorded stmt hold other hother
    · exact hdeclared stmt hnew other hother

end CfgMethod

namespace MethodBuilder

open CfgMethod

variable {chars : CharClass} {builder builder' : MethodBuilder}

/-- The names are distinct, and names that are generated collide with none. -/
structure NamesUnique (builder : MethodBuilder) : Prop where
  distinct : builder.method.DistinctNames
  freshLabel : ∀ name method', builder.method.getFreshLabelName = some (name, method') →
    name ∉ builder.method.declaredNames ∧ ∀ stmt ∈ builder.method.stmts, ¬LabelIn true name stmt
  freshVar : ∀ name index,
    builder.method.generateFreshLocalVarName builder.freshVarIndex = some (name, index) →
      name ∉ builder.method.declaredNames ∧ ∀ stmt ∈ builder.method.stmts, ¬LabelIn true name stmt

/-- An operation introduces no name twice and no label that is not recorded. -/
def KeepsNames (builder : MethodBuilder) : NameOp → Prop
  | .addBlock label stmts => label ∉ builder.method.declaredNames ∧
    ∀ stmt ∈ stmts, ∀ other, LabelIn true other stmt → other ∈ builder.method.labels
  | .addStmt _ stmt => ∀ label, LabelIn true label stmt →
    label ∈ builder.method.labels ∨ LabelIn false label stmt
  | .addStmts _ stmts => ∀ stmt ∈ stmts, ∀ label, LabelIn true label stmt →
    label ∈ builder.method.labels ∨ ∃ other ∈ stmts, LabelIn false label other
  | _ => True

theorem namesUnique_iff : builder.NamesUnique ↔ builder.method.DistinctNames := by
  constructor
  · exact NamesUnique.distinct
  · intro h
    refine ⟨h, ?_, ?_⟩
    · intro name method' hfound
      obtain ⟨⟨name', index⟩, hfind, heq⟩ := Option.map_eq_some_iff.mp hfound
      cases heq
      exact h.fresh (findFreshLabel_spec hfind).1
    · intro name index hfound
      exact h.fresh (findFreshName_spec hfound).1

/-- An operation that does not panic keeps the names distinct if and only if it is one of
those described. -/
theorem distinctNames_perform_iff (h : builder.method.DistinctNames) {op : NameOp}
    (hperform : builder.perform chars op = some builder') :
    builder'.method.DistinctNames ↔ builder.KeepsNames op := by
  cases op with
  | addLocalVar name typ =>
    obtain ⟨method', hadd, rfl⟩ := Option.map_eq_some_iff.mp hperform
    exact iff_of_true (h.addLocalVar hadd) trivial
  | addFreshLocalVar typ =>
    obtain ⟨found, hfound, rfl⟩ := Option.map_eq_some_iff.mp hperform
    have hfresh := (findFreshName_spec hfound).1
    have hadd : builder.method.addLocalVar found.1 typ = some _ := if_pos hfresh
    exact iff_of_true (h.addLocalVar hadd) trivial
  | addFormalReturn name typ =>
    obtain ⟨method', hadd, rfl⟩ := Option.map_eq_some_iff.mp hperform
    exact iff_of_true (h.addFormalReturn hadd) trivial
  | getFreshLabelName =>
    obtain ⟨⟨name, method'⟩, hfound, rfl⟩ := Option.map_eq_some_iff.mp hperform
    obtain ⟨found, -, heq⟩ := Option.map_eq_some_iff.mp hfound
    cases heq
    exact iff_of_true ⟨h.nodup, h.recorded⟩ trivial
  | addStmt index stmt =>
    obtain ⟨method', hadd, rfl⟩ := Option.map_eq_some_iff.mp hperform
    rw [← addStmts_singleton] at hadd
    simpa [KeepsNames, setMethod] using distinctNames_addStmts_iff h hadd
  | addStmts index stmts =>
    obtain ⟨method', hadd, rfl⟩ := Option.map_eq_some_iff.mp hperform
    exact distinctNames_addStmts_iff h hadd
  | addBlock label stmts =>
    obtain ⟨⟨index, method'⟩, hadd, rfl⟩ := Option.map_eq_some_iff.mp hperform
    exact distinctNames_addBlock_iff h hadd

/-- In every state that the operations reach from a new method the names are unique,
if and only if its variables have different names, every block that is added has a fresh
label and statements whose labels are declared already, and the labels in other statements
that are added are declared already or occur in these outside of the DAGs. -/
theorem namesUnique_performAll_iff (chars : CharClass) (uuid : Nat) (methodName : String)
    (formalArgCount : Nat) (formalReturns localVars : List LocalVar)
    (reservedLabels : List String) (ops : List NameOp) :
    let start := new uuid methodName formalArgCount formalReturns localVars reservedLabels
    (∀ before reached, before <+: ops → start.performAll chars before = some reached →
      reached.NamesUnique) ↔
    ((formalReturns ++ localVars).map (·.name)).Nodup ∧
      ∀ before op reached next, before ++ [op] <+: ops →
        start.performAll chars before = some reached →
        reached.perform chars op = some next → reached.KeepsNames op := by
  intro start
  have hstart : start.method.declaredNames = (formalReturns ++ localVars).map (·.name) := by
    simp [start, new, CfgMethod.new, declaredNames]
  constructor
  · intro h
    refine ⟨?_, ?_⟩
    · rw [← hstart]
      exact (h [] start (List.nil_prefix) rfl).distinct.nodup
    · intro before op reached next hprefix hreached hnext
      have hdistinct := (h before reached
        ((List.prefix_append _ _).trans hprefix) hreached).distinct
      apply (distinctNames_perform_iff hdistinct hnext).mp
      refine (h (before ++ [op]) next hprefix ?_).distinct
      rw [performAll_concat, hreached]
      exact hnext
  · rintro ⟨hnodup, hops⟩ before
    induction before using List.reverseRecOn with
    | nil =>
      intro reached _ hreached
      cases hreached
      exact namesUnique_iff.mpr ⟨hstart ▸ hnodup, fun stmt hstmt => by cases hstmt⟩
    | append_singleton before op ih =>
      intro reached hprefix hreached
      rw [performAll_concat] at hreached
      obtain ⟨middle, hmiddle, hstep⟩ := Option.bind_eq_some_iff.mp hreached
      have hdistinct := (ih middle ((List.prefix_append _ _).trans hprefix) hmiddle).distinct
      exact namesUnique_iff.mpr ((distinctNames_perform_iff hdistinct hstep).mpr
        (hops before op middle reached hprefix hmiddle hstep))

namespace Witness

def letters : CharClass where
  isAlphabetic := Char.isAlpha
  isAlphanumeric := Char.isAlphanum
  alphabetic_l := isAlpha_l
  alphanumeric_digit := isAlphanum_of_isDigit

/-- A block is added under the name of a variable. -/
theorem not_namesUnique_addBlock :
    ¬∀ before reached, before <+: [.addLocalVar "x" .int, .addBlock "x" []] →
      (new 0 "m" 0 [] [] []).performAll letters before = some reached → reached.NamesUnique := by
  intro h
  have hnodup := (h _ _ (List.prefix_refl _) rfl).distinct.nodup
  exact absurd hnodup (by decide)

end Witness

end MethodBuilder

end Prusti.Cfg

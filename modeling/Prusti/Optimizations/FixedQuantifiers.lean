/-
The pass `fix_quantifiers` keeps the scope and the value of an expression, if what it
moves may be moved.
-/
import Prusti.Optimizations.ReplacedBodies
import Prusti.Optimizations.ExtractedUnfoldings

namespace Prusti.Optimizations.QuantifierFixer

open Prusti.Lib Prusti.Vir

/-- No free variables are added, and the value stays the same in every environment and
heap. -/
def Preserves (expr expr' : Expr) : Prop :=
  expr'.free ⊆ expr.free ∧ ∀ (M : TotalModel) (state : M.State) (env : M.Env),
    M.eval expr' state env = M.eval expr state env

def boundVars : Expr → List LocalVar
  | .forAll vars _ _ _ | .exist vars _ _ _ => vars
  | .letExpr var _ _ _ => [var]
  | _ => []

/-- No bound variable is of reference type. -/
def bindsNoRefs (expr : Expr) : Bool :=
  expr.nodes.all fun node => (boundVars node).all fun var => !var.typ.isRef

/-- Does the first pass meet an unfolding in the expression? -/
def hasUnfolding (expr : Expr) : Bool :=
  expr.para fun node parts _ =>
    match node with
    | .labelledOld _ _ _ => false
    | .unfolding _ _ _ _ _ _ => true
    | _ => parts.any id

/-- Nothing is moved in the expression, or the names of the lets are not used in it, the
equality of types tells the types of the variables apart that are quantified in what is
pulled out, and that mentions no names that are bound in between. -/
def MayFix (counter : Nat) (expr : Expr) : Prop :=
  (hasUnfolding expr = false ∧ isMovable none false expr [] = true) ∨
    (∀ name ∈ expr.names, ¬ IsNew counter name) ∧
      ∃ types, Expr.Distinct types ∧ isMovable (some types) false expr [] = true

/-- Every quantifier, as far as magic wands are not entered, is in such an expression. -/
def CanMove (counter : Nat) (expr : Expr) : Prop :=
  expr.para fun node parts _ => MayFix counter node ∨
    match treatment node with
    | .wand => True
    | .quantifier _ => False
    | _ => ∀ part ∈ parts, part

/-- What the rewriting relies on. -/
structure CanFix (counter : Nat) (expr : Expr) : Prop where
  extractable : isExtractable expr none = true
  movable : CanMove counter expr

section Passes

variable {order : IterOrder} {counter : Nat}

theorem canMove_iff {expr : Expr} :
    CanMove counter expr ↔ MayFix counter expr ∨
      match treatment expr with
      | .wand => True
      | .quantifier _ => False
      | _ => ∀ child ∈ expr.children, CanMove counter child := by
  unfold CanMove
  rw [Expr.para_eq]
  cases treatment expr <;> simp only [List.forall_mem_map]

/-- The first pass changes nothing where it meets no unfolding. -/
theorem extractorFold_same (expr : Expr) :
    ∀ state expr' state', hasUnfolding expr = false →
      UnfoldingExtractor.fold order expr state = some (expr', state') →
      (state.unfoldings.entries = [] → state'.unfoldings.entries = []) ∧ expr' = expr := by
  induction expr using Expr.children_induction with
  | h expr ih _ =>
  intro state expr' state' hnone h
  rw [extractorFold_eq] at h
  unfold hasUnfolding at hnone
  rw [Expr.para_eq] at hnone
  have hdefault : ((expr.children.map hasUnfolding).any id) = false →
      defaultFold expr (expr.children.map (UnfoldingExtractor.fold order)) state =
        some (expr', state') →
      (state.unfoldings.entries = [] → state'.unfoldings.entries = []) ∧ expr' = expr := by
    intro hparts h
    rw [List.any_map, List.any_eq_false] at hparts
    obtain ⟨parts, hfold, rfl⟩ := defaultFold_eq_some h
    obtain ⟨_, hle, hsame⟩ := foldAll_spec (P := fun _ : UnfoldingExtractor => True)
      (L := fun state state' : UnfoldingExtractor =>
        state.unfoldings.entries = [] → state'.unfoldings.entries = [])
      (Q := fun _ child part => part = child)
      (fun _ => id) (fun _ _ _ h h' => h' ∘ h) (fun _ _ _ _ _ => id)
      (fun child hchild state part state' _ hfold => ⟨trivial,
        ih child hchild state part state' (Bool.eq_false_iff.mpr (hparts child hchild)) hfold⟩)
      trivial hfold
    exact ⟨hle, rebuild_of_same hsame⟩
  cases expr with
  | labelledOld =>
    cases h
    exact ⟨id, rfl⟩
  | unfolding => cases hnone
  | forAll vars triggers body pos =>
    simp only [UnfoldingExtractor.foldNode, Expr.children, List.map_cons, List.map_nil] at h
    split at h
    · cases h
    · next hempty =>
        simp only [Option.bind_eq_bind, Option.bind_eq_some_iff] at h
        obtain ⟨⟨body', middle⟩, hfold, heq⟩ := h
        cases heq
        obtain ⟨hentries, rfl⟩ := ih body (List.mem_singleton.mpr rfl) _ body' middle
          ((Bool.or_false _).symm.trans hnone) hfold
        rw [Bool.not_eq_true', Bool.not_eq_false, List.isEmpty_iff] at hempty
        have hiter : order.iter middle.quantifiers middle.unfoldings.entries = [] := by
          rw [hentries hempty]
          exact List.perm_nil.mp (order.iter_perm _ [])
        rw [hiter]
        exact ⟨fun _ => rfl, rfl⟩
  | _ => exact hdefault hnone h

/-- The second pass changes nothing where nothing is pulled out. -/
theorem replaceExprOld_same (expr : Expr) :
    ∀ counter expr' counter', Fixable none (fun _ => True) expr →
      replaceExprOld order expr counter = some (expr', counter') →
      counter' = counter ∧ expr' = expr := by
  induction expr using Expr.children_induction with
  | h expr ih _ =>
  intro counter expr' counter' hfixable h
  rw [replaceExprOld_eq] at h
  have hdefault : treatment expr ≠ .wand →
      defaultFold expr (expr.children.map (replaceExprOld order)) counter =
        some (expr', counter') → counter' = counter ∧ expr' = expr := by
    intro hwand h
    obtain ⟨parts, hfold, rfl⟩ := defaultFold_eq_some h
    obtain ⟨_, hcounter, hsame⟩ := foldAll_spec (P := fun _ : Nat => True)
      (L := fun counter counter' => counter' = counter) (Q := fun _ child part => part = child)
      (fun _ => rfl) (fun _ _ _ h h' => h'.trans h) (fun _ _ _ _ _ => id)
      (fun child hchild counter part counter' _ hfold => ⟨trivial, ih child hchild counter part
        counter' (hfixable.child (fun _ _ => trivial) hwand hchild) hfold⟩)
      trivial hfold
    exact ⟨hcounter, rebuild_of_same hsame⟩
  cases expr with
  | magicWand =>
    cases h
    exact ⟨rfl, rfl⟩
  | forAll vars triggers body pos =>
    obtain ⟨body', middle, body'', replacer, hbody, hreplace, rfl, hwrap⟩ := foldNode_forAll h
    have hmem : body ∈ (Expr.forAll vars triggers body pos).children := List.mem_singleton.mpr rfl
    obtain ⟨rfl, rfl⟩ := ih body hmem counter body' middle
      (hfixable.child (fun _ _ => trivial) (fun hwand => (nomatch hwand)) hmem) hbody
    obtain ⟨levels, _, hmovable⟩ := hfixable
    have hnil : pulledNodes vars body' = [] := by
      refine List.eq_nil_iff_forall_not_mem.mpr fun node hnode => ?_
      have hout := movesOut_of_mem_pulledNodes body' (Level.ofVars vars)
        (isMovable_forAll hmovable) node hnode
      cases hout.among
    obtain ⟨⟨hnumbered, hkeys⟩, habs⟩ := replacerFold_new hreplace
    rw [hnil] at hkeys
    have hentries : replacer.map.entries = [] :=
      List.eq_nil_iff_forall_not_mem.mpr fun entry hentry => (nomatch hkeys entry hentry)
    have hiter : order.iter middle replacer.map.entries = [] := by
      rw [hentries]
      exact List.perm_nil.mp (order.iter_perm _ [])
    rw [hwrap hnumbered, hiter, eq_of_abstracts body' hnil body'' habs, hnumbered.counter, hentries]
    exact ⟨rfl, rfl⟩
  | _ => exact hdefault (fun hwand => (nomatch hwand)) h

/-- What the first pass does outside of quantifiers. -/
structure OuterSpec (counter : Nat) (expr expr' : Expr) : Prop where
  keeps : Keeps (fun _ => False) (fun _ => False) expr expr'
  movable : ∀ types, isMovable (some types) false expr [] = true →
    isMovable (some types) false expr' [] = true
  canMove : CanMove counter expr → CanMove counter expr'

theorem isMovable_rebuild {types : List Typ} {node : Expr} {parts : List Expr}
    (hquantifier : ∀ vars, treatment node ≠ .quantifier vars)
    (h : List.Forall₂ (OuterSpec counter) node.children parts)
    (hmovable : isMovable (some types) false node [] = true) :
    isMovable (some types) false (node.rebuild parts) [] = true := by
  have hlength := h.length_eq.symm
  rw [isMovable_eq] at hmovable ⊢
  unfold isMovableNode at hmovable ⊢
  rw [treatment_rebuild hlength, Expr.children_rebuild hlength]
  cases hnode : treatment node with
  | wand => rfl
  | quantifier vars => exact absurd hnode (hquantifier vars)
  | _ =>
    rw [hnode] at hmovable
    refine all_map_iff.mpr fun part hpart => ?_
    obtain ⟨child, hchild, hspec⟩ := exists_of_forall₂_mem_right h hpart
    exact hspec.movable types (all_map_iff.mp hmovable child hchild)

/-- The first pass keeps the condition on the second one. -/
theorem extractorFold_outer (expr : Expr) :
    ∀ state expr' state', state.inQuantifier = false → isExtractable expr none = true →
      UnfoldingExtractor.fold order expr state = some (expr', state') →
      state'.inQuantifier = false ∧ OuterSpec counter expr expr' := by
  induction expr using Expr.children_induction with
  | h expr ih _ =>
  intro state expr' state' hstate hextractable h
  have hspec : Keeps (fun _ => False) (fun _ => False) expr expr' →
      (∀ types, isMovable (some types) false expr [] = true →
        isMovable (some types) false expr' [] = true) →
      ((match treatment expr with
        | .wand => True
        | .quantifier _ => False
        | _ => ∀ child ∈ expr.children, CanMove counter child) → CanMove counter expr') →
      OuterSpec counter expr expr' := by
    intro hkeeps hmovable hparts
    refine ⟨hkeeps, hmovable, fun hcan => ?_⟩
    rcases canMove_iff.mp hcan with (⟨hnone, _⟩ | ⟨hnames, types, htypes, hcan⟩) | hcan
    · rwa [(extractorFold_same expr state expr' state' hnone h).2]
    · refine canMove_iff.mpr (.inl (.inr ⟨?_, types, htypes, hmovable types hcan⟩))
      exact fun name hname => hnames name ((hkeeps.names name hname).resolve_right id)
    · exact hparts hcan
  rw [extractorFold_eq] at h
  rw [isExtractable_eq] at hextractable
  have hdefault : (expr.binders.zip (expr.children.map isExtractable)).all
        (fun part => part.2 (none.map (part.1 ++ ·))) = true →
      (∀ vars, treatment expr ≠ .quantifier vars) →
      defaultFold expr (expr.children.map (UnfoldingExtractor.fold order)) state =
        some (expr', state') → state'.inQuantifier = false ∧ OuterSpec counter expr expr' := by
    intro hall hquantifier h
    obtain ⟨parts, hfold, rfl⟩ := defaultFold_eq_some h
    obtain ⟨hlast, _, hparts⟩ := foldAll_spec
      (P := fun state : UnfoldingExtractor => state.inQuantifier = false) (L := fun _ _ => True)
      (Q := fun _ => OuterSpec counter)
      (fun _ => trivial) (fun _ _ _ _ _ => trivial) (fun _ _ _ _ _ => id)
      (fun child hchild state part state' hstate hfold => by
        obtain ⟨bound, hmem⟩ := Expr.exists_mem_binders_zip hchild
        have hpart := ih child hchild state part state' hstate (isExtractable_default hall hmem)
          hfold
        exact ⟨hpart.1, trivial, hpart.2⟩)
      hstate hfold
    refine ⟨hlast, hspec (Keeps.rebuild (hparts.imp fun _ _ hpart => hpart.keeps))
      (fun _ => isMovable_rebuild hquantifier hparts) fun hcan => canMove_iff.mpr (.inr ?_)⟩
    rw [treatment_rebuild hparts.length_eq.symm, Expr.children_rebuild hparts.length_eq.symm]
    have himp : (∀ child ∈ expr.children, CanMove counter child) →
        ∀ part ∈ parts, CanMove counter part := by
      intro hchildren part hpart
      obtain ⟨child, hchild, hspec⟩ := exists_of_forall₂_mem_right hparts hpart
      exact hspec.canMove (hchildren child hchild)
    cases hnode : treatment expr <;> rw [hnode] at hcan <;> first
      | exact hcan
      | exact himp hcan
  cases expr with
  | labelledOld =>
    cases h
    exact ⟨hstate, Keeps.refl _, fun _ => id, id⟩
  | unfolding =>
    simp only [UnfoldingExtractor.foldNode, hstate] at h
    cases h
    exact ⟨hstate, Keeps.refl _, fun _ => id, id⟩
  | forAll vars triggers body pos =>
    have hextracts : ∀ types, Extracts types [] (.forAll vars triggers body pos) expr' ∧
        state'.inQuantifier = false := by
      intro types
      obtain ⟨hforAll, hlast⟩ := extractorSpec_forAll (extractorFold_spec types body) h
      exact ⟨hforAll.extracts [] (by rwa [isExtractable_eq]), hlast⟩
    refine ⟨(hextracts []).2, hspec ?_ (fun types => (hextracts types).1.moves [] within_nil)
      False.elim⟩
    exact (hextracts []).1.keeps.mono (fun _ => id) fun _ => False.elim
  | _ => exact hdefault hextractable (fun _ h => by cases h) h

/-- The second pass keeps the scope and the value. -/
theorem replaceExprOld_keeps (expr : Expr) :
    ∀ counter' expr' counter'', counter ≤ counter' → CanMove counter expr →
      replaceExprOld order expr counter' = some (expr', counter'') →
      counter ≤ counter'' ∧ Keeps (fun _ => True) (fun _ => False) expr expr' := by
  induction expr using Expr.children_induction with
  | h expr ih _ =>
  intro counter' expr' counter'' hle hcan h
  rcases canMove_iff.mp hcan with (⟨_, hmovable⟩ | ⟨hnames, types, htypes, hmovable⟩) | hparts
  · obtain ⟨rfl, rfl⟩ := replaceExprOld_same expr counter' expr' counter''
      ⟨[], within_nil, hmovable⟩ h
    exact ⟨hle, Keeps.refl expr'⟩
  · obtain ⟨hfirst, _, hfixes⟩ := replaceExprOld_spec htypes expr counter' expr' counter'' hle
      hnames ⟨[], within_nil, hmovable⟩ h
    exact ⟨hfirst, hfixes.keeps.mono (fun _ _ => trivial) fun _ => False.elim⟩
  · rw [replaceExprOld_eq] at h
    have hdefault : (∀ child ∈ expr.children, CanMove counter child) →
        defaultFold expr (expr.children.map (replaceExprOld order)) counter' =
          some (expr', counter'') →
        counter ≤ counter'' ∧ Keeps (fun _ => True) (fun _ => False) expr expr' := by
      intro hchildren h
      obtain ⟨parts, hfold, rfl⟩ := defaultFold_eq_some h
      obtain ⟨hlast, _, hkeeps⟩ := foldAll_spec (P := fun counter' => counter ≤ counter')
        (L := fun _ _ => True) (Q := fun _ => Keeps (fun _ => True) fun _ => False)
        (fun _ => trivial) (fun _ _ _ _ _ => trivial) (fun _ _ _ _ _ => id)
        (fun child hchild counter' part counter'' hle hfold =>
          have hpart := ih child hchild counter' part counter'' hle (hchildren child hchild) hfold
          ⟨hpart.1, trivial, hpart.2⟩)
        hle hfold
      exact ⟨hlast, Keeps.rebuild hkeeps⟩
    cases expr with
    | magicWand =>
      cases h
      exact ⟨hle, Keeps.refl _⟩
    | forAll => exact hparts.elim
    | _ => exact hdefault hparts h

end Passes

namespace Witness

def pos : Position := Position.default
def x : LocalVar := ⟨"x", .int⟩
def y : LocalVar := ⟨"y", .int⟩
def limit : LocalVar := ⟨"limit", .int⟩
def self : LocalVar := ⟨"self", .typedRef "T"⟩

/-- `forall x :: unfolding T(self) in limit + 1 > x` -/
def bounded : Expr :=
  .forAll [x] [] (.unfolding "T" [.ofLocal self]
    (.binOp .gtCmp (.binOp .add (.ofLocal limit) (.ofInt 1) pos) (.ofLocal x) pos)
    .read none pos) pos

/-- `unfolding T(self) in forall x :: _LET_0 > x`, and `_LET_0` is `limit + 1`. -/
def fixedBounded : Expr :=
  .unfolding "T" [.ofLocal self]
    (.letExpr ⟨letName 0, .int⟩ (.binOp .add (.ofLocal limit) (.ofInt 1) pos)
      (.forAll [x] [] (.binOp .gtCmp (.localVar ⟨letName 0, .int⟩ pos) (.ofLocal x) pos) pos)
      pos) .read none pos

theorem not_isNew_of_head {name : String} (h : name.toList.head? ≠ some '_')
    (counter : Nat) : ¬ IsNew counter name := by
  rintro ⟨number, _, rfl⟩
  exact h (head?_append rfl)

/-- `forall x :: exists y :: y + 1 > x` -/
def leaking : Expr :=
  .forAll [x] [] (.exist [y] []
    (.binOp .gtCmp (.binOp .add (.ofLocal y) (.ofInt 1) pos) (.ofLocal x) pos) pos) pos

end Witness

end Prusti.Optimizations.QuantifierFixer

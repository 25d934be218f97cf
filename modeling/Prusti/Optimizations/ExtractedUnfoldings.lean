/-
The unfoldings inside of a quantifier are moved out of it.  Their arguments leave the
scope of the quantifier and of the binders in between.
-/
import Prusti.Optimizations.KeptExprs

namespace Prusti.Optimizations.QuantifierFixer

open Prusti.Lib Prusti.Vir

variable {scope : List String} {node expr expr' : Expr}
  {state state' : UnfoldingExtractor}

/-- Neither a binder nor a magic wand nor an access to a field is in the expression. -/
def isFlat (expr : Expr) : Bool :=
  expr.para fun node parts _ => !node.isBinder && parts.all id &&
    match treatment node with
    | .kept | .entered => true
    | _ => false

/-- The arguments of an unfolding inside of a quantifier are flat and mention none of the
names that are bound around the unfolding by the outermost quantifier or inside of it. -/
def isExtractableNode (node : Expr) (parts : List (Option (List String) → Bool))
    (scope : Option (List String)) : Bool :=
  match node with
  | .labelledOld _ _ _ => true
  | .unfolding _ args _ _ _ _ => scope.all fun names =>
    (args.all fun arg => isFlat arg && arg.free.all (!names.contains ·)) &&
      parts.getLast?.all fun part => part scope
  | .forAll vars _ _ _ =>
    parts.all fun part => part (some (vars.map (·.name) ++ scope.getD []))
  | _ => (node.binders.zip parts).all fun part => part.2 (scope.map (part.1 ++ ·))

def isExtractable (expr : Expr) : Option (List String) → Bool :=
  expr.para fun node parts _ => isExtractableNode node parts

theorem isExtractable_eq (expr : Expr) (scope : Option (List String)) :
    isExtractable expr scope =
      isExtractableNode expr (expr.children.map isExtractable) scope :=
  congrFun (Expr.para_eq _ expr) scope

/-- The arguments that may leave the scope of the names. -/
structure MayLeave (scope : List String) (expr arg : Expr) : Prop where
  flat : isFlat arg = true
  free : arg.free ⊆ expr.free
  outside : ∀ name ∈ arg.free, name ∉ scope

section Flat

variable {types : List Typ} {arg : Expr}

theorem isFlat_parts (h : isFlat arg = true) :
    arg.isBinder = false ∧ (treatment arg = .kept ∨ treatment arg = .entered) ∧
      ∀ child ∈ arg.children, isFlat child = true := by
  unfold isFlat at h
  rw [Expr.para_eq, Bool.and_eq_true, Bool.and_eq_true, Bool.not_eq_true', List.all_map,
    List.all_eq_true] at h
  refine ⟨h.1.1, ?_, h.1.2⟩
  cases hnode : treatment arg with
  | kept => exact .inl rfl
  | entered => exact .inr rfl
  | _ =>
    rw [hnode] at h
    cases h.2

/-- All names in a flat expression are free in it. -/
theorem names_subset_free_of_isFlat (arg : Expr) (h : isFlat arg = true) :
    arg.names ⊆ arg.free ∧ arg.quantTypes = [] := by
  induction arg using Expr.children_induction with
  | h arg ih _ =>
  obtain ⟨hbinder, _, hchildren⟩ := isFlat_parts h
  have hown : arg.ownNames = arg.ownFree ∧ arg.triggers = [] ∧ arg.ownTypes = [] := by
    cases arg <;> first
      | exact ⟨rfl, rfl, rfl⟩
      | cases hbinder
  refine ⟨?_, ?_⟩
  · intro name hname
    rw [Expr.mem_names_iff, hown.1, hown.2.1] at hname
    rw [Expr.mem_free_iff_of_not_binder hbinder]
    rcases hname with hself | ⟨child, hchild, hname⟩ | ⟨trigger, htrigger, _⟩
    · exact .inl hself
    · exact .inr ⟨child, hchild, (ih child hchild (hchildren child hchild)).1 hname⟩
    · cases htrigger
  · rw [Expr.quantTypes_eq, hown.2.2, List.nil_append, List.flatten_eq_nil_iff,
      List.forall_mem_map]
    exact fun child hchild => (ih child hchild (hchildren child hchild)).2

/-- A flat expression that mentions no bound name may be moved out of all binders. -/
theorem isMovable_of_isFlat (arg : Expr) (hflat : isFlat arg = true)
    (houtside : ∀ name ∈ arg.free, name ∉ scope) :
    ∀ levels, Within (· ∈ scope) levels → isMovable (some types) false arg levels = true := by
  induction arg using Expr.children_induction with
  | h arg ih _ =>
  obtain ⟨hbinder, hnode, hchildren⟩ := isFlat_parts hflat
  have hparts : ∀ levels, Within (· ∈ scope) levels →
      ((arg.children.map (isMovable (some types) false)).all fun part => part levels) = true := by
    intro levels hlevels
    rw [all_map_iff]
    intro child hchild
    refine ih child hchild (hchildren child hchild) (fun name hname => houtside name ?_) levels
      hlevels
    exact (Expr.mem_free_iff_of_not_binder hbinder).mpr (.inr ⟨child, hchild, hname⟩)
  intro levels hlevels
  rw [isMovable_eq]
  induction levels with
  | nil =>
    unfold isMovableNode
    rcases hnode with hnode | hnode <;> rw [hnode] <;> exact hparts [] within_nil
  | cons level levels ihLevels =>
    have hlevel := hlevels level List.mem_cons_self
    unfold isMovableNode
    split
    · have htypes : arg.quantTypes ⊆ types := by
        rw [(names_subset_free_of_isFlat arg hflat).2]
        exact List.nil_subset types
      rw [Bool.and_eq_true, Bool.and_eq_true, Level.allows_iff]
      refine ⟨⟨isAmong_some.mpr htypes, fun name hname hcrossed =>
        houtside name hname (hlevel.2 name hcrossed)⟩, ihLevels ?_⟩
      exact fun other hother => hlevels other (List.mem_cons_of_mem _ hother)
    · rcases hnode with hnode | hnode <;> rw [hnode]
      · exact hparts [] within_nil
      · have hall := hparts (level :: levels) hlevels
        rw [List.all_map] at hall
        change (List.zip _ _).all _ = true
        rw [Expr.binders_eq_map hbinder, List.zip_map', List.all_map]
        exact hall

end Flat

section Extracted

/-- What the first pass does to an expression in the scope of the names. -/
structure Extracts (types : List Typ) (scope : List String) (expr expr' : Expr) : Prop where
  keeps : Keeps (fun _ => False) (· ∈ scope) expr expr'
  moves : Moves (some types) false false (· ∈ scope) expr expr'
  quiet : ∀ vars : List LocalVar, (∀ var ∈ vars, var.name ∈ scope) →
    isQuiet vars expr = true → isQuiet vars expr' = true

variable {types : List Typ}

theorem Extracts.refl (scope : List String) (expr : Expr) : Extracts types scope expr expr :=
  ⟨Keeps.refl expr, fun _ _ => id, fun _ _ => id⟩

theorem isQuiet_rebuild {new isVar : String → Prop} {vars : List LocalVar}
    (hvars : ∀ var ∈ vars, isVar var.name) {parts : List Expr}
    (hkeeps : List.Forall₂ (Keeps new isVar) node.children parts)
    (hparts : List.Forall₂ (fun child part => isQuiet vars child = true →
      isQuiet vars part = true) node.children parts) (h : isQuiet vars node = true) :
    isQuiet vars (node.rebuild parts) = true := by
  have hlength := hkeeps.length_eq.symm
  have hall : ((node.children.map (isQuiet vars)).all id) = true →
      ((parts.map (isQuiet vars)).all id) = true := by
    rw [List.all_eq_true, List.all_eq_true, List.forall_mem_map, List.forall_mem_map]
    intro hchildren part hpart
    obtain ⟨child, hchild, himp⟩ := exists_of_forall₂_mem_right hparts hpart
    exact himp (hchildren child hchild)
  rw [isQuiet_eq, Bool.and_eq_true] at h ⊢
  rw [mayPull_rebuild hvars hkeeps, treatment_rebuild hlength, Expr.children_rebuild hlength]
  refine ⟨h.1, ?_⟩
  cases hnode : treatment node with
  | kept => rfl
  | quantifier =>
    rw [hnode] at h
    exact h.2
  | wand | access | entered =>
    rw [hnode] at h
    exact hall h.2

/-- The parts of a node, each in its own scope. -/
theorem extracts_rebuild {parts : List Expr}
    (h : List.Forall₂ (fun child part => Extracts types (child.1 ++ scope) child.2 part)
      (node.binders.zip node.children) parts) :
    Extracts types scope node (node.rebuild parts) := by
  have hscope : ∀ {bound : List String} {name : String}, name ∈ scope → name ∈ bound ++ scope :=
    fun hname => List.mem_append_right _ hname
  have hkeeps : List.Forall₂ (Keeps (fun _ => False) (· ∈ scope)) node.children parts := by
    rw [← Expr.zip_map_snd_binders node, List.forall₂_map_left_iff]
    exact h.imp fun _ _ hpart => hpart.keeps.mono (fun _ => id) fun _ => hscope
  have hquiet : ∀ vars : List LocalVar, (∀ var ∈ vars, var.name ∈ scope) →
      List.Forall₂ (fun child part => isQuiet vars child = true → isQuiet vars part = true)
        node.children parts := by
    intro vars hvars
    rw [← Expr.zip_map_snd_binders node, List.forall₂_map_left_iff]
    exact h.imp fun _ _ hpart => hpart.quiet vars fun var hvar => hscope (hvars var hvar)
  refine ⟨Keeps.rebuild hkeeps, moves_rebuild id hkeeps ?_ ?_, ?_⟩
  · exact h.imp fun _ _ hpart => hpart.moves.mono fun _ => List.mem_append.mpr
  · intro _ vars hvars hall
    rw [List.all_eq_true] at hall ⊢
    intro part hpart
    obtain ⟨child, hchild, himp⟩ := exists_of_forall₂_mem_right (hquiet vars hvars) hpart
    exact himp (hall child hchild)
  · intro vars hvars
    exact isQuiet_rebuild hvars hkeeps (hquiet vars hvars)

end Extracted

section Unfolding

variable {types : List Typ} {name : String} {args : List Expr} {base : Expr} {perm : PermAmount}
  {index : Option EnumVariantIndex} {pos : Position}

theorem find_unfolding {target : LocalVar} :
    (Expr.unfolding name args base perm index pos).find (.ofLocal target) = true ↔
      (∃ arg ∈ args, arg.find (.ofLocal target) = true) ∨ base.find (.ofLocal target) = true := by
  rw [Expr.find_iff]
  constructor
  · rintro (hself | ⟨child, hchild, hfind⟩)
    · exact absurd hself Bool.false_ne_true
    · rcases List.mem_append.mp hchild with harg | hbase
      · exact .inl ⟨child, harg, hfind⟩
      · rw [List.mem_singleton.mp hbase] at hfind
        exact .inr hfind
  · rintro (⟨arg, harg, hfind⟩ | hfind)
    · exact .inr ⟨arg, List.mem_append_left _ harg, hfind⟩
    · exact .inr ⟨base, List.mem_append_right _ (List.mem_singleton.mpr rfl), hfind⟩

/-- The arguments do not mention the variables of the scope. -/
theorem find_unfolding_of_mayLeave (hargs : ∀ arg ∈ args, MayLeave scope expr arg)
    {target : LocalVar} (htarget : target.name ∈ scope) :
    (Expr.unfolding name args base perm index pos).find (.ofLocal target) =
      base.find (.ofLocal target) := by
  rw [Bool.eq_iff_iff, find_unfolding, or_iff_right]
  rintro ⟨arg, harg, hfind⟩
  have hleave := hargs arg harg
  exact hleave.outside _ ((names_subset_free_of_isFlat arg hleave.flat).1
    (Expr.mem_names_of_find hfind)) htarget

theorem isMovable_unfolding {done : Bool} {levels : List Level} :
    isMovable (some types) done (.unfolding name args base perm index pos) levels = true ↔
      (levels = [] ∧ done = true) ∨
        ∀ part ∈ args ++ [base], isMovable (some types) done part levels = true := by
  rw [isMovable_eq]
  cases levels with
  | nil =>
    change (done || _) = true ↔ _
    rw [Bool.or_eq_true, all_map_iff]
    simp [Expr.children]
  | cons level levels =>
    change (List.zip _ _).all _ = true ↔ _
    rw [Expr.binders_eq_map rfl, List.zip_map', List.all_eq_true, List.forall_mem_map,
      or_iff_right fun h => List.cons_ne_nil _ _ h.1]
    rfl

/-- The expression is kept, and what may be moved. -/
def KeepsMoves (types : List Typ) (scope : List String) (expr expr' : Expr) : Prop :=
  Keeps (fun _ => False) (· ∈ scope) expr expr' ∧
    Moves (some types) false false (· ∈ scope) expr expr'

/-- An unfolding in front does no harm. -/
theorem extracts_unfolding (h : KeepsMoves types scope expr base)
    (hargs : ∀ arg ∈ args, MayLeave scope expr arg) :
    KeepsMoves types scope expr (.unfolding name args base perm index pos) := by
  refine ⟨⟨?_, ?_, ?_, ?_, h.1.place, h.1.isLocal, h.1.location, ?_⟩, ?_⟩
  · intro name hname
    rw [Expr.mem_free_iff_of_not_binder rfl] at hname
    rcases hname with hself | ⟨child, hchild, hname⟩
    · cases hself
    · rcases List.mem_append.mp hchild with harg | hbase
      · exact (hargs child harg).free hname
      · rw [List.mem_singleton.mp hbase] at hname
        exact h.1.free hname
  · intro name hname
    rw [Expr.mem_names_iff] at hname
    rcases hname with hself | ⟨child, hchild, hname⟩ | ⟨trigger, htrigger, _⟩
    · cases hself
    · rcases List.mem_append.mp hchild with harg | hbase
      · have hleave := hargs child harg
        exact .inl (Expr.free_subset_names expr (hleave.free
          ((names_subset_free_of_isFlat child hleave.flat).1 hname)))
      · rw [List.mem_singleton.mp hbase] at hname
        exact h.1.names name hname
    · cases htrigger
  · intro typ htyp
    rw [Expr.quantTypes_eq] at htyp
    obtain ⟨_, hmem, htyp⟩ := List.mem_flatten.mp htyp
    obtain ⟨child, hchild, rfl⟩ := List.mem_map.mp hmem
    rcases List.mem_append.mp hchild with harg | hbase
    · rw [(names_subset_free_of_isFlat child (hargs child harg).flat).2] at htyp
      cases htyp
    · rw [List.mem_singleton.mp hbase] at htyp
      exact h.1.types htyp
  · intro var hvar
    rw [find_unfolding_of_mayLeave hargs hvar]
    exact h.1.find var hvar
  · intro M
    rw [TotalModel.meaning_unfolding]
    exact h.1.meaning M
  · intro levels hlevels hmovable
    rw [isMovable_unfolding]
    refine .inr fun part hpart => ?_
    rcases List.mem_append.mp hpart with harg | hbase
    · have hleave := hargs part harg
      exact isMovable_of_isFlat part hleave.flat hleave.outside levels hlevels
    · rw [List.mem_singleton.mp hbase]
      exact h.2 levels hlevels hmovable

/-- An unfolding that is moved away leaves its body. -/
theorem extracts_body (h : Extracts types scope base expr')
    (hargs : ∀ arg ∈ args, MayLeave scope (.unfolding name args base perm index pos) arg) :
    Extracts types scope (.unfolding name args base perm index pos) expr' := by
  have hmem : base ∈ (Expr.unfolding name args base perm index pos).children :=
    List.mem_append_right _ (List.mem_singleton.mpr rfl)
  refine ⟨⟨?_, ?_, ?_, ?_, h.keeps.place, h.keeps.isLocal, h.keeps.location, ?_⟩, ?_, ?_⟩
  · intro name hname
    exact Expr.mem_free_of_child (Expr.mem_binders_zip rfl hmem) (h.keeps.free hname)
      List.not_mem_nil
  · intro name hname
    exact (h.keeps.names name hname).imp_left (Expr.names_child hmem ·)
  · exact List.Subset.trans h.keeps.types (Expr.quantTypes_child hmem)
  · intro var hvar
    rw [find_unfolding_of_mayLeave hargs hvar]
    exact h.keeps.find var hvar
  · intro M
    rw [TotalModel.meaning_unfolding]
    exact h.keeps.meaning M
  · intro levels hlevels hmovable
    rw [isMovable_unfolding] at hmovable
    rcases hmovable with ⟨_, hdone⟩ | hparts
    · cases hdone
    · exact h.moves levels hlevels (hparts base hmem)
  · intro vars hvars hquiet
    exact h.quiet vars hvars ((isQuiet_entered hquiet).2 rfl base hmem)

end Unfolding

section Fold

variable {types : List Typ} {order : IterOrder}

/-- The unfoldings in front of a quantifier. -/
theorem extracts_wrapUnfoldings
    {entries : List (UnfoldingKey × PermAmount × Option EnumVariantIndex × Position)}
    (hentries : ∀ entry ∈ entries, ∀ arg ∈ entry.1.2, MayLeave scope expr arg) (pos : Position)
    (h : KeepsMoves types scope expr expr') :
    KeepsMoves types scope expr (UnfoldingExtractor.wrapUnfoldings entries expr' pos) := by
  induction entries generalizing expr' with
  | nil => exact h
  | cons entry entries ih =>
    rw [List.forall_mem_cons] at hentries
    exact ih hentries.2 (extracts_unfolding h hentries.1)

/-- All pending arguments are good ones. -/
def Pending (Good : Expr → Prop) (state : UnfoldingExtractor) : Prop :=
  ∀ entry ∈ state.unfoldings.entries, ∀ arg ∈ entry.1.2, Good arg

/-- What the first pass does inside of a quantifier: the expression is kept, and the
arguments of the unfoldings that are left over may leave its scope. -/
structure ExtractorSpec (types : List Typ) (expr : Expr) (state : UnfoldingExtractor)
    (expr' : Expr) (state' : UnfoldingExtractor) : Prop where
  extracts : ∀ scope, isExtractable expr (some scope) = true → Extracts types scope expr expr'
  pending : ∀ scope Good, isExtractable expr (some scope) = true →
    (∀ arg, MayLeave scope expr arg → Good arg) → Pending Good state → Pending Good state'

/-- The nodes that the extractor folds by default. -/
theorem isExtractable_default
    {scope : Option (List String)} (h : (node.binders.zip (node.children.map isExtractable)).all
      (fun part => part.2 (scope.map (part.1 ++ ·))) = true) {bound : List String} {child : Expr}
    (hmem : (bound, child) ∈ node.binders.zip node.children) :
    isExtractable child (scope.map (bound ++ ·)) = true := by
  rw [List.zip_map_right, List.all_eq_true, List.forall_mem_map] at h
  exact h (bound, child) hmem

theorem MayLeave.of_child {bound : List String} {child arg : Expr}
    (hmem : (bound, child) ∈ node.binders.zip node.children)
    (h : MayLeave (bound ++ scope) child arg) : MayLeave scope node arg := by
  refine ⟨h.flat, ?_, ?_⟩
  · intro name hname
    refine Expr.mem_free_of_child hmem (h.free hname) fun hbound => ?_
    exact h.outside name hname (List.mem_append_left _ hbound)
  · intro name hname hscope
    exact h.outside name hname (List.mem_append_right _ hscope)

theorem extractorSpec_default
    (hnode : ∀ scope, isExtractable node (some scope) = true →
      (node.binders.zip (node.children.map isExtractable)).all
        (fun part => part.2 ((some scope).map (part.1 ++ ·))) = true)
    (ih : ∀ child ∈ node.children, ∀ state expr' state',
      UnfoldingExtractor.fold order child state = some (expr', state') →
      ExtractorSpec types child state expr' state')
    (h : defaultFold node (node.children.map (UnfoldingExtractor.fold order)) state =
      some (expr', state')) : ExtractorSpec types node state expr' state' := by
  obtain ⟨parts, hfold, rfl⟩ := defaultFold_eq_some h
  refine ⟨?_, ?_⟩
  · intro scope hscope
    have hall := hnode scope hscope
    obtain ⟨_, _, hparts⟩ := foldAll_spec (P := fun _ : UnfoldingExtractor => True)
      (L := fun _ _ => True)
      (Q := fun _ child part => ∀ scope, isExtractable child (some scope) = true →
        Extracts types scope child part)
      (fun _ => trivial) (fun _ _ _ _ _ => trivial) (fun _ _ _ _ _ => id)
      (fun child hchild state part state' _ hfold =>
        ⟨trivial, trivial, (ih child hchild state part state' hfold).extracts⟩)
      trivial hfold
    rw [← Expr.zip_map_snd_binders node, List.forall₂_map_left_iff] at hparts
    refine extracts_rebuild (forall₂_imp_mem hparts ?_)
    rintro ⟨bound, child⟩ hmem part _ hpart
    exact hpart (bound ++ scope) (isExtractable_default hall hmem)
  · intro scope Good hscope hgood hpending
    have hall := hnode scope hscope
    have hspec := foldAll_spec (P := Pending Good) (L := fun _ _ => True)
      (Q := fun _ _ _ => True)
      (fun _ => trivial) (fun _ _ _ _ _ => trivial) (fun _ _ _ _ _ => id)
      (fun child hchild state part state' hpending hfold => by
        have hspec := ih child hchild state part state' hfold
        obtain ⟨bound, hmem⟩ := Expr.exists_mem_binders_zip hchild
        exact ⟨hspec.pending (bound ++ scope) Good
          (isExtractable_default hall hmem) (fun arg hleave => hgood arg (hleave.of_child hmem))
          hpending, trivial, trivial⟩)
      hpending hfold
    exact hspec.1

theorem mayLeave_args {name : String} {args : List Expr} {base : Expr} {perm : PermAmount}
    {index : Option EnumVariantIndex} {pos : Position}
    (h : isExtractable (.unfolding name args base perm index pos) (some scope) = true) :
    (∀ arg ∈ args, MayLeave scope (.unfolding name args base perm index pos) arg) ∧
      isExtractable base (some scope) = true := by
  have hlast : ((args ++ [base]).map isExtractable).getLast? = some (isExtractable base) := by
    rw [List.map_append]
    exact List.getLast?_concat
  rw [isExtractable_eq] at h
  simp only [isExtractableNode, Expr.children, hlast, Bool.and_eq_true, List.all_eq_true,
    Option.all_some] at h
  refine ⟨fun arg harg => ?_, h.2⟩
  obtain ⟨hpath, houtside⟩ := h.1 arg harg
  refine ⟨hpath, ?_, ?_⟩
  · intro name hname
    exact Expr.mem_free_of_child (Expr.mem_binders_zip rfl (List.mem_append_left _ harg)) hname
      List.not_mem_nil
  · intro name hname
    simpa using houtside name hname

/-- An unfolding inside of a quantifier becomes pending. -/
theorem extractorSpec_unfolding {name : String} {args : List Expr} {base : Expr} {perm : PermAmount}
    {index : Option EnumVariantIndex} {pos : Position}
    (h : ExtractorSpec types base { state with
      unfoldings := state.unfoldings.insert (name, args) (perm, index, pos) } expr' state') :
    ExtractorSpec types (.unfolding name args base perm index pos) state expr' state' := by
  refine ⟨?_, ?_⟩
  · intro scope hscope
    obtain ⟨hargs, hbase⟩ := mayLeave_args hscope
    exact extracts_body (h.extracts scope hbase) hargs
  · intro scope Good hscope hgood hpending
    obtain ⟨hargs, hbase⟩ := mayLeave_args hscope
    have hmem : base ∈ (Expr.unfolding name args base perm index pos).children :=
      List.mem_append_right _ (List.mem_singleton.mpr rfl)
    refine h.pending scope Good hbase ?_ ?_
    · intro arg hleave
      exact hgood arg (MayLeave.of_child (Expr.mem_binders_zip rfl hmem) hleave)
    · intro entry hentry arg harg
      rcases HashMap.mem_entries_insert hentry with ⟨old, hold, hkey⟩ | hkey
      · rw [← hkey] at harg
        exact hpending old hold arg harg
      · rw [hkey] at harg
        exact hgood arg (hargs arg harg)

/-- The pending unfoldings are put in front of the quantifier. -/
theorem extractorSpec_forAll {vars : List LocalVar} {triggers : List (List Expr)} {body : Expr}
    {pos : Position} {fold : Folder UnfoldingExtractor}
    (hbody : ∀ state body' state', fold state = some (body', state') →
      ExtractorSpec types body state body' state')
    (h : UnfoldingExtractor.foldNode order (.forAll vars triggers body pos) [fold] state =
      some (expr', state')) :
    ExtractorSpec types (.forAll vars triggers body pos) state expr' state' ∧
      state'.inQuantifier = false := by
  simp only [UnfoldingExtractor.foldNode] at h
  split at h
  · cases h
  · next hempty =>
      simp only [Option.bind_eq_bind, Option.bind_eq_some_iff] at h
      obtain ⟨⟨body', middle⟩, hfold, heq⟩ := h
      cases heq
      have hspec := hbody _ body' middle hfold
      have hzip : (vars.map (·.name), body) ∈ (Expr.forAll vars triggers body pos).binders.zip
          (Expr.forAll vars triggers body pos).children := List.mem_singleton.mpr rfl
      have hinner : ∀ scope, isExtractable (.forAll vars triggers body pos) (some scope) = true →
          isExtractable body (some (vars.map (·.name) ++ scope)) = true := by
        intro scope hscope
        rw [isExtractable_eq] at hscope
        exact List.all_eq_true.mp hscope _ (List.mem_singleton.mpr rfl)
      refine ⟨⟨?_, fun _ _ _ _ _ _ h => (by cases h)⟩, rfl⟩
      intro scope hscope
      have hextracts : Extracts types scope (.forAll vars triggers body pos)
          (.forAll vars triggers body' pos) := by
        have hparts : List.Forall₂
            (fun child part => Extracts types (child.1 ++ scope) child.2 part)
            ((Expr.forAll vars triggers body pos).binders.zip
              (Expr.forAll vars triggers body pos).children) [body'] :=
          .cons (hspec.extracts _ (hinner scope hscope)) .nil
        exact extracts_rebuild hparts
      have hpending : Pending (MayLeave scope (.forAll vars triggers body pos)) middle := by
        refine hspec.pending _ _ (hinner scope hscope) ?_ ?_
        · intro arg hleave
          exact hleave.of_child hzip
        · intro entry hentry
          rw [Bool.not_eq_true', Bool.not_eq_false, List.isEmpty_iff] at hempty
          rw [hempty] at hentry
          cases hentry
      have hentries : ∀ entry ∈ order.iter middle.quantifiers middle.unfoldings.entries,
          ∀ arg ∈ entry.1.2, MayLeave scope (.forAll vars triggers body pos) arg :=
        fun entry hentry => hpending entry ((order.mem_iter _ _ _).mp hentry)
      have hwrap := extracts_wrapUnfoldings hentries pos ⟨hextracts.keeps, hextracts.moves⟩
      refine ⟨hwrap.1, hwrap.2, ?_⟩
      intro vars' _ hquiet
      rw [isQuiet_eq, Bool.and_eq_true] at hquiet
      cases hquiet.2

/-- The first pass keeps an expression whose unfoldings may be moved. -/
theorem extractorFold_spec (types : List Typ) (expr : Expr) :
    ∀ state expr' state', UnfoldingExtractor.fold order expr state = some (expr', state') →
      ExtractorSpec types expr state expr' state' := by
  induction expr using Expr.children_induction with
  | h expr ih _ =>
  intro state expr' state' h
  rw [extractorFold_eq] at h
  have hkept : ExtractorSpec types expr state expr state :=
    ⟨fun scope _ => Extracts.refl scope expr, fun _ _ _ _ => id⟩
  cases expr with
  | labelledOld =>
    cases h
    exact hkept
  | unfolding name args base perm index pos =>
    cases hquantifier : state.inQuantifier with
    | false =>
      simp only [UnfoldingExtractor.foldNode, hquantifier] at h
      cases h
      exact hkept
    | true =>
      have hlast : ((args ++ [base]).map (UnfoldingExtractor.fold order)).getLast? =
          some (UnfoldingExtractor.fold order base) := by
        rw [List.map_append]
        exact List.getLast?_concat
      simp only [UnfoldingExtractor.foldNode, Expr.children, hlast, Option.bind_eq_bind,
        Option.bind_some] at h
      rw [if_pos hquantifier] at h
      have hmem : base ∈ (Expr.unfolding name args base perm index pos).children :=
        List.mem_append_right _ (List.mem_singleton.mpr rfl)
      exact extractorSpec_unfolding (ih base hmem _ _ _ h)
  | forAll vars triggers body pos =>
    exact (extractorSpec_forAll (ih body (List.mem_singleton.mpr rfl)) h).1
  | _ =>
    refine extractorSpec_default (fun scope hscope => ?_) ih h
    rw [isExtractable_eq] at hscope
    exact hscope

end Fold

end Prusti.Optimizations.QuantifierFixer

/-
The unfoldings that are moved in front of a quantifier, in the order of a hash
map, beside those that the folding optimizer puts back.
-/
import Prusti.Optimizations.RestoredUnfoldings

namespace Prusti.Lib.IterOrder

/-- Every iteration goes through the entries backwards. -/
def reversed : IterOrder := ⟨fun _ _ list => list.reverse, fun _ _ list => List.reverse_perm list⟩

end Prusti.Lib.IterOrder

namespace Prusti.Lib.HashMap

variable {α β : Type} [BEq α]

theorem mem_keys_insert {map : HashMap α β} {key other : α} {value : β}
    (h : other ∈ (map.insert key value).keys) : other ∈ map.keys ∨ other = key := by
  obtain ⟨entry, hentry, rfl⟩ := List.mem_map.mp h
  rcases mem_entries_insert hentry with ⟨old, hold, heq⟩ | hnew
  · rw [← heq]
    exact .inl (List.mem_map_of_mem hold)
  · exact .inr hnew

theorem keys_insert (map : HashMap α β) (key : α) (value : β) :
    (map.insert key value).keys = if map.contains key then map.keys else map.keys ++ [key] := by
  change (if map.contains key then _ else _ : List (α × β)).map Prod.fst = _
  split
  · rw [List.map_map]
    refine List.map_congr_left fun entry _ => ?_
    simp only [Function.comp_apply]
    split <;> rfl
  · rw [List.map_append]
    rfl

end Prusti.Lib.HashMap

namespace Prusti.Optimizations.QuantifierFixer

open Prusti.Lib Prusti.Vir Prusti.Optimizations.Folding

variable {children : List Expr} {order : IterOrder} {vars : List LocalVar}
  {triggers : List (List Expr)} {body : Expr} {pos : Position}

variable {state state' : UnfoldingExtractor}

def pendingNode (node : Expr) (parts : List (List UnfoldingKey)) : List UnfoldingKey :=
  match node with
  | .labelledOld _ _ _ | .forAll _ _ _ _ => []
  | .unfolding name args _ _ _ _ => (name, args) :: parts.getLast?.getD []
  | _ => parts.flatten

/-- The unfoldings in the body of a quantifier that the extractor meets. -/
def pendingUnfoldings (expr : Expr) : List UnfoldingKey :=
  expr.para fun node parts _ => pendingNode node parts

def meetsForAllNode (node : Expr) (parts : List Bool) : Bool :=
  match node with
  | .labelledOld _ _ _ => false
  | .forAll _ _ _ _ => true
  | .unfolding _ _ _ _ _ _ => parts.getLast?.getD false
  | _ => parts.any id

/-- Does the extractor meet another quantifier? -/
def meetsForAll (expr : Expr) : Bool := expr.para fun node parts _ => meetsForAllNode node parts

theorem pendingUnfoldings_eq (expr : Expr) :
    pendingUnfoldings expr = pendingNode expr (expr.children.map pendingUnfoldings) :=
  Expr.para_eq _ expr

theorem meetsForAll_eq (expr : Expr) :
    meetsForAll expr = meetsForAllNode expr (expr.children.map meetsForAll) :=
  Expr.para_eq _ expr

theorem fold_unfolding (order : IterOrder) (name : String) (args : List Expr)
    (base : Expr) (perm : PermAmount) (index : Option EnumVariantIndex)
    (pos : Position) (state : UnfoldingExtractor) :
    UnfoldingExtractor.fold order (.unfolding name args base perm index pos)
        state =
      if state.inQuantifier then UnfoldingExtractor.fold order base
        { state with unfoldings :=
            state.unfoldings.insert (name, args) (perm, index, pos) }
      else some (.unfolding name args base perm index pos, state) := by
  rw [extractorFold_eq]
  simp [UnfoldingExtractor.foldNode, Expr.children]

theorem fold_forAll (order : IterOrder) (vars : List LocalVar) (triggers : List (List Expr))
    (body : Expr) (pos : Position) (hempty : state.unfoldings.entries = []) :
    UnfoldingExtractor.fold order (.forAll vars triggers body pos) state =
      (UnfoldingExtractor.fold order body
        { state with inQuantifier := true }).map fun (body, state) =>
        (UnfoldingExtractor.wrapUnfoldings (order.iter state.quantifiers state.unfoldings.entries)
          (.forAll vars triggers body pos) pos, ⟨HashMap.empty, false, state.quantifiers + 1⟩) := by
  rw [extractorFold_eq]
  simp only [UnfoldingExtractor.foldNode, Expr.children, List.map_cons, List.map_nil, hempty]
  cases UnfoldingExtractor.fold order body { state with inQuantifier := true } <;>
    rfl

/-- The extractor has gathered the unfoldings. -/
structure Gathers (state : UnfoldingExtractor) (keys : List UnfoldingKey)
    (state' : UnfoldingExtractor) : Prop where
  inQuantifier : state'.inQuantifier = true
  kept : ∀ key ∈ state.unfoldings.keys, key ∈ state'.unfoldings.keys
  gathered : ∀ key ∈ keys, ∃ other ∈ state'.unfoldings.keys, other = key ∨ (other == key) = true
  source : ∀ key ∈ state'.unfoldings.keys, key ∈ state.unfoldings.keys ∨ key ∈ keys

namespace Gathers

variable {state middle state' : UnfoldingExtractor}
  {keys keys' : List UnfoldingKey}

theorem refl (h : state.inQuantifier = true) : Gathers state [] state :=
  ⟨h, fun _ => id, nofun, fun _ => .inl⟩

theorem trans (h : Gathers state keys middle) (h' : Gathers middle keys' state') :
    Gathers state (keys ++ keys') state' := by
  refine ⟨h'.inQuantifier, fun key hkey => h'.kept key (h.kept key hkey), ?_, ?_⟩
  · intro key hkey
    rcases List.mem_append.mp hkey with hkey | hkey
    · obtain ⟨other, hother, heq⟩ := h.gathered key hkey
      exact ⟨other, h'.kept other hother, heq⟩
    · exact h'.gathered key hkey
  · intro key hkey
    rcases h'.source key hkey with hkey | hkey
    · exact (h.source key hkey).imp_right (List.mem_append_left _)
    · exact .inr (List.mem_append_right _ hkey)

/-- One more unfolding. -/
theorem insert (h : state.inQuantifier = true) (key : UnfoldingKey)
    (value : PermAmount × Option EnumVariantIndex × Position) :
    Gathers state [key]
      { state with unfoldings := state.unfoldings.insert key value } := by
  refine ⟨h, ?_, ?_, ?_⟩
  · intro other hother
    change other ∈ (state.unfoldings.insert key value).keys
    rw [HashMap.keys_insert]
    split
    · exact hother
    · exact List.mem_append_left _ hother
  · intro other hother
    rw [List.mem_singleton.mp hother]
    change ∃ other ∈ (state.unfoldings.insert key value).keys, _
    rw [HashMap.keys_insert]
    split
    · next hcontains =>
        obtain ⟨entry, hentry, heq⟩ := List.any_eq_true.mp hcontains
        exact ⟨entry.1, List.mem_map_of_mem hentry, .inr heq⟩
    · exact ⟨key, List.mem_append_right _ (List.mem_singleton_self _), .inl rfl⟩
  · intro other hother
    exact (HashMap.mem_keys_insert hother).imp_right List.mem_singleton.mpr

end Gathers

/-- Without another quantifier the extractor returns, in the same way for all
orders, and has gathered the unfoldings. -/
def FoldsQuietly (expr : Expr) : Prop :=
  ∀ state : UnfoldingExtractor, state.inQuantifier = true →
    ∃ expr' state', (∀ order, UnfoldingExtractor.fold order expr state =
      some (expr', state')) ∧ Gathers state (pendingUnfoldings expr) state'

theorem foldAll_quietly (h : ∀ child ∈ children, FoldsQuietly child) (state : UnfoldingExtractor)
    (hstate : state.inQuantifier = true) :
    ∃ parts state', (∀ order, foldAll
      (children.map (UnfoldingExtractor.fold order)) state = some (parts, state')) ∧
      Gathers state (children.map pendingUnfoldings).flatten state' := by
  induction children generalizing state with
  | nil => exact ⟨[], state, fun _ => rfl, Gathers.refl hstate⟩
  | cons child children ih =>
    obtain ⟨part, middle, hfold, hgathers⟩ := h child List.mem_cons_self state hstate
    obtain ⟨parts, state', hfolds, hgathers'⟩ :=
      ih (fun child hchild => h child (List.mem_cons_of_mem _ hchild)) middle hgathers.inQuantifier
    refine ⟨part :: parts, state', fun order => ?_, hgathers.trans hgathers'⟩
    rw [List.map_cons, foldAll, hfold order]
    simp [hfolds order]

theorem foldsQuietly_default {node : Expr}
    (hpending : pendingUnfoldings node = (node.children.map pendingUnfoldings).flatten)
    (hfold : ∀ order state, UnfoldingExtractor.fold order node state =
      defaultFold node (node.children.map (UnfoldingExtractor.fold order)) state)
    (h : ∀ child ∈ node.children, FoldsQuietly child) : FoldsQuietly node := by
  intro state hstate
  obtain ⟨parts, state', hfolds, hgathers⟩ := foldAll_quietly h state hstate
  refine ⟨node.rebuild parts, state', fun order => ?_, ?_⟩
  · rw [hfold, defaultFold, hfolds order]
    rfl
  · rw [hpending]
    exact hgathers

theorem foldsQuietly (expr : Expr) (hmeets : meetsForAll expr = false) : FoldsQuietly expr := by
  induction expr using Expr.children_induction with
  | h expr ih _ =>
  rw [meetsForAll_eq] at hmeets
  cases expr with
  | labelledOld label base pos =>
    intro state hstate
    refine ⟨_, state, fun order => extractorFold_eq order _ state, ?_⟩
    exact Gathers.refl hstate
  | forAll => cases hmeets
  | unfolding name args base perm index pos =>
    intro state hstate
    have hbase : meetsForAll base = false := by
      simpa [meetsForAllNode, Expr.children] using hmeets
    obtain ⟨expr', state', hfold, hgathers⟩ :=
      ih base (List.mem_append_right _ (List.mem_singleton_self _)) hbase
        { state with unfoldings :=
            state.unfoldings.insert (name, args) (perm, index, pos) } hstate
    refine ⟨expr', state', fun order => ?_, ?_⟩
    · rw [fold_unfolding, if_pos hstate]
      exact hfold order
    · rw [pendingUnfoldings_eq]
      have hkeys := (Gathers.insert hstate (name, args) (perm, index, pos)).trans hgathers
      simpa [pendingNode, Expr.children] using hkeys
  | _ =>
    refine foldsQuietly_default (pendingUnfoldings_eq _)
      (fun order state => extractorFold_eq order _ state) fun child hchild => ?_
    refine ih child hchild ?_
    have hall := List.any_eq_false.mp hmeets (meetsForAll child) (List.mem_map_of_mem hchild)
    simpa using hall

/-- The extractor has left a quantifier. -/
structure Idle (state : UnfoldingExtractor) : Prop where
  inQuantifier : state.inQuantifier = false
  empty : state.unfoldings.entries = []

/-- A quantifier is only entered without pending unfoldings. -/
theorem idle_of_fold_forAll {expr' : Expr}
    (hfold : UnfoldingExtractor.fold order (.forAll vars triggers body pos) state =
      some (expr', state')) : Idle state' := by
  cases hentries : state.unfoldings.entries with
  | nil =>
    rw [fold_forAll _ _ _ _ _ hentries, Option.map_eq_some_iff] at hfold
    obtain ⟨_, _, heq⟩ := hfold
    cases heq
    exact ⟨rfl, rfl⟩
  | cons entry entries =>
    rw [extractorFold_eq] at hfold
    simp [UnfoldingExtractor.foldNode, Expr.children, hentries] at hfold

theorem idle_of_foldAll {parts : List Expr}
    (h : ∀ child ∈ children, ∀ state expr' state', Idle state →
      UnfoldingExtractor.fold order child state = some (expr', state') →
      Idle state') (hstate : Idle state)
    (hfold : foldAll (children.map (UnfoldingExtractor.fold order)) state = some (parts, state')) :
    Idle state' := by
  induction children generalizing state parts with
  | nil =>
    cases hfold
    exact hstate
  | cons child children ih =>
    rw [List.map_cons, foldAll] at hfold
    simp only [Option.bind_eq_bind, Option.bind_eq_some_iff] at hfold
    obtain ⟨⟨part, middle⟩, hpart, ⟨rest, last⟩, hrest, heq⟩ := hfold
    cases heq
    exact ih (fun child hchild => h child (List.mem_cons_of_mem _ hchild))
      (h child List.mem_cons_self _ _ _ hstate hpart) hrest

/-- After a quantifier the extractor gathers nothing any more. -/
theorem idle_of_fold (order : IterOrder) (expr : Expr) :
    ∀ state expr' state', Idle state →
      UnfoldingExtractor.fold order expr state = some (expr', state') →
      Idle state' := by
  induction expr using Expr.children_induction with
  | h expr ih _ =>
  intro state expr' state' hstate hfold
  cases expr with
  | labelledOld =>
    rw [extractorFold_eq] at hfold
    cases hfold
    exact hstate
  | unfolding =>
    rw [fold_unfolding, if_neg (by rw [hstate.inQuantifier]; decide)] at hfold
    cases hfold
    exact hstate
  | forAll => exact idle_of_fold_forAll hfold
  | _ =>
    rw [extractorFold_eq] at hfold
    obtain ⟨parts, hparts, -⟩ := defaultFold_eq_some hfold
    exact idle_of_foldAll (fun child hchild => ih child hchild) hstate hparts

/-- A child that meets a quantifier leaves the extractor idle. -/
theorem idle_of_foldAll_meets {parts : List Expr}
    (h : ∀ child ∈ children, meetsForAll child = true →
      ∀ state expr' state', state.inQuantifier = true →
      UnfoldingExtractor.fold order child state = some (expr', state') →
      Idle state') (hstate : state.inQuantifier = true)
    (hmeets : ∃ child ∈ children, meetsForAll child = true)
    (hfold : foldAll (children.map (UnfoldingExtractor.fold order)) state = some (parts, state')) :
    Idle state' := by
  induction children generalizing state parts with
  | nil =>
    obtain ⟨child, hchild, -⟩ := hmeets
    cases hchild
  | cons child children ih =>
    rw [List.map_cons, foldAll] at hfold
    simp only [Option.bind_eq_bind, Option.bind_eq_some_iff] at hfold
    obtain ⟨⟨part, middle⟩, hpart, ⟨rest, last⟩, hrest, heq⟩ := hfold
    cases heq
    cases hchild : meetsForAll child with
    | true =>
      have hidle := h child List.mem_cons_self hchild _ _ _ hstate hpart
      exact idle_of_foldAll (fun child _ => idle_of_fold order child) hidle hrest
    | false =>
      obtain ⟨_, _, hfold, hgathers⟩ := foldsQuietly child hchild state hstate
      rw [hfold order] at hpart
      cases hpart
      refine ih (fun child hchild => h child (List.mem_cons_of_mem _ hchild))
        hgathers.inQuantifier ?_ hrest
      obtain ⟨other, hother, hmeets⟩ := hmeets
      rcases List.mem_cons.mp hother with rfl | hother
      · rw [hchild] at hmeets
        cases hmeets
      · exact ⟨other, hother, hmeets⟩

/-- Once it has met another quantifier the extractor is idle. -/
theorem idle_of_meetsForAll (order : IterOrder) (expr : Expr) :
    meetsForAll expr = true → ∀ state expr' state', state.inQuantifier = true →
      UnfoldingExtractor.fold order expr state = some (expr', state') →
      Idle state' := by
  induction expr using Expr.children_induction with
  | h expr ih _ =>
  intro hmeets state expr' state' hstate hfold
  rw [meetsForAll_eq] at hmeets
  cases expr with
  | labelledOld => cases hmeets
  | unfolding name args base perm index pos =>
    have hbase : meetsForAll base = true := by
      simpa [meetsForAllNode, Expr.children] using hmeets
    rw [fold_unfolding, if_pos hstate] at hfold
    refine ih base (List.mem_append_right _ (List.mem_singleton_self _)) hbase _
      _ _ ?_ hfold
    exact hstate
  | forAll vars triggers body pos => exact idle_of_fold_forAll hfold
  | _ =>
    rw [extractorFold_eq] at hfold
    obtain ⟨parts, hparts, -⟩ := defaultFold_eq_some hfold
    obtain ⟨_, hmapped, hmeets⟩ := List.any_eq_true.mp hmeets
    obtain ⟨child, hchild, rfl⟩ := List.mem_map.mp hmapped
    exact idle_of_foldAll_meets (fun child hchild => ih child hchild) hstate
      ⟨child, hchild, hmeets⟩ hparts

theorem outerLayers_wrapUnfoldings
    (entries : List (UnfoldingKey × PermAmount × Option EnumVariantIndex × Position))
    (expr : Expr) (pos : Position) :
    (UnfoldingExtractor.wrapUnfoldings entries expr pos).outerLayers =
      (entries.map fun entry => entry.1.2).reverse ++ expr.outerLayers := by
  induction entries generalizing expr with
  | nil => rfl
  | cons entry entries ih =>
    change (UnfoldingExtractor.wrapUnfoldings entries _ pos).outerLayers = _
    rw [ih, List.map_cons, List.reverse_cons, List.append_assoc]
    rfl

/-- In every order the unfoldings in front of the quantifier stand outermost
first. -/
def PlacesOutermostFirst (vars : List LocalVar) (triggers : List (List Expr))
    (body : Expr) (pos : Position) : Prop :=
  ∀ order state expr' state', state.unfoldings.entries = [] →
    UnfoldingExtractor.fold order (.forAll vars triggers body pos) state =
      some (expr', state') → OutermostFirst expr'.outerLayers

/-- The extractor gathers no unfolding of a place above another one: it meets
another quantifier, or no two of the places are nested. -/
def NoneNested (body : Expr) : Prop :=
  meetsForAll body = true ∨
    ∀ first ∈ pendingUnfoldings body, ∀ second ∈ pendingUnfoldings body,
      ∀ below above, first.2 = [below] → second.2 = [above] → below.hasProperPrefix above = false

/-- The relation of the layers of an expression. -/
def MayEnclose (outer inner : List Expr) : Prop :=
  ∀ below above, outer = [below] → inner = [above] → below.hasProperPrefix above = false

theorem not_hasProperPrefix_self (place : Expr) : place.hasProperPrefix place = false := by
  rw [Bool.eq_false_iff]
  intro hproper
  exact lt_irrefl _ (Expr.height_lt_of_hasProperPrefix hproper)

/-- If both an order and its reverse are outermost first then nothing is
nested. -/
theorem mayEnclose_of_both {layers : List (List Expr)}
    (h : OutermostFirst layers) (hreverse : OutermostFirst layers.reverse)
    {outer inner : List Expr} (houter : outer ∈ layers) (hinner : inner ∈ layers) :
    MayEnclose outer inner := by
  rw [OutermostFirst, List.pairwise_reverse] at hreverse
  rw [OutermostFirst] at h
  rw [List.pairwise_iff_getElem] at h hreverse
  obtain ⟨i, hi, rfl⟩ := List.getElem_of_mem houter
  obtain ⟨j, hj, rfl⟩ := List.getElem_of_mem hinner
  rcases lt_trichotomy i j with hlt | rfl | hgt
  · exact h i j hi hj hlt
  · intro below above hbelow habove
    rw [hbelow] at habove
    rw [List.singleton_inj.mp habove]
    exact not_hasProperPrefix_self above
  · exact hreverse j i hj hi hgt

/-- A pending unfolding of one place is gathered, up to equality. -/
theorem Gathers.exists_layer {keys : List UnfoldingKey} (h : Gathers state keys state')
    {key : UnfoldingKey} {place : Expr} (hkey : key ∈ keys) (hplace : key.2 = [place]) :
    ∃ place', (place' = place ∨ (place' == place) = true) ∧
      [place'] ∈ state'.unfoldings.entries.map fun entry => entry.1.2 := by
  obtain ⟨other, hother, heq⟩ := h.gathered key hkey
  obtain ⟨entry, hentry, rfl⟩ := List.mem_map.mp hother
  rcases heq with heq | heq
  · refine ⟨place, .inl rfl, List.mem_map.mpr ⟨entry, hentry, ?_⟩⟩
    rw [heq, hplace]
  · have hargs : (entry.1.2 == key.2) = true := (Bool.and_eq_true_iff.mp heq).2
    rw [hplace] at hargs
    cases hlist : entry.1.2 with
    | nil =>
      rw [hlist] at hargs
      cases hargs
    | cons place' rest =>
      rw [hlist, list_beq_cons_iff] at hargs
      cases rest with
      | nil => exact ⟨place', .inr hargs.1, List.mem_map.mpr ⟨entry, hentry, hlist⟩⟩
      | cons => cases hargs.2

/-- The layers in front of a quantifier. -/
theorem outerLayers_of_fold {expr' : Expr} (hempty : state.unfoldings.entries = [])
    (h : UnfoldingExtractor.fold order (.forAll vars triggers body pos) state =
      some (expr', state')) :
    ∃ body' middle, UnfoldingExtractor.fold order body
        { state with inQuantifier := true } = some (body', middle) ∧
      expr'.outerLayers = ((order.iter middle.quantifiers
        middle.unfoldings.entries).map fun entry => entry.1.2).reverse := by
  rw [fold_forAll _ _ _ _ _ hempty, Option.map_eq_some_iff] at h
  obtain ⟨⟨body', middle⟩, hfold, heq⟩ := h
  cases heq
  refine ⟨body', middle, hfold, ?_⟩
  rw [outerLayers_wrapUnfoldings]
  exact List.append_nil _

theorem noneNested_of_placesOutermostFirst (h : PlacesOutermostFirst vars triggers body pos) :
    NoneNested body := by
  cases hmeets : meetsForAll body with
  | true => exact .inl hmeets
  | false =>
    obtain ⟨body', middle, hfold, hgathers⟩ := foldsQuietly body hmeets ⟨HashMap.empty, true, 0⟩ rfl
    have hlayers : ∀ order : IterOrder, OutermostFirst
        ((order.iter middle.quantifiers middle.unfoldings.entries).map
          fun entry => entry.1.2).reverse := by
      intro order
      have hplaced := h order ⟨HashMap.empty, false, 0⟩ _ _ rfl (by
        rw [fold_forAll _ _ _ _ _ rfl, hfold order]
        rfl)
      rw [outerLayers_wrapUnfoldings, show Expr.outerLayers (.forAll vars
        triggers body' pos) = [] from rfl, List.append_nil] at hplaced
      exact hplaced
    have hforward := hlayers .identity
    have hbackward : OutermostFirst (middle.unfoldings.entries.map fun entry => entry.1.2) := by
      have := hlayers .reversed
      rwa [show IterOrder.reversed.iter middle.quantifiers
        middle.unfoldings.entries = middle.unfoldings.entries.reverse from rfl,
        List.map_reverse, List.reverse_reverse] at this
    refine .inr fun first hfirst second hsecond below above hbelow habove => ?_
    obtain ⟨below', heq, hmem⟩ := hgathers.exists_layer hfirst hbelow
    obtain ⟨above', heq', hmem'⟩ := hgathers.exists_layer hsecond habove
    have hnot := mayEnclose_of_both hbackward hforward hmem hmem' below' above'
      rfl rfl
    rcases heq with rfl | heq <;> rcases heq' with rfl | heq'
    · exact hnot
    · rwa [Expr.hasProperPrefix_congr_right _ heq'] at hnot
    · rwa [Expr.hasProperPrefix_congr_left heq] at hnot
    · rwa [Expr.hasProperPrefix_congr_left heq, Expr.hasProperPrefix_congr_right _ heq'] at hnot

theorem placesOutermostFirst_of_noneNested (h : NoneNested body) :
    PlacesOutermostFirst vars triggers body pos := by
  intro order state expr' state' hempty hfold
  obtain ⟨body', middle, hbody, hlayers⟩ := outerLayers_of_fold hempty hfold
  rw [hlayers, OutermostFirst, List.pairwise_reverse, List.pairwise_map]
  cases hmeets : meetsForAll body with
  | true =>
    have hidle := idle_of_meetsForAll order body hmeets _ _ _ rfl hbody
    have hnil : order.iter middle.quantifiers middle.unfoldings.entries = [] :=
      List.perm_nil.mp (hidle.empty ▸ order.iter_perm _ _)
    rw [hnil]
    exact .nil
  | false =>
    obtain ⟨_, _, hquiet, hgathers⟩ := foldsQuietly body hmeets
      { state with inQuantifier := true } rfl
    rw [hquiet order] at hbody
    cases hbody
    have hpending : ∀ entry ∈ order.iter middle.quantifiers
        middle.unfoldings.entries, entry.1 ∈ pendingUnfoldings body := by
      intro entry hentry
      refine (hgathers.source entry.1 (List.mem_map_of_mem
        ((order.mem_iter _ _ _).mp hentry))).resolve_left ?_
      intro hold
      rw [HashMap.keys, show HashMap.entries _ = [] from hempty] at hold
      cases hold
    have hnone := h.resolve_left (by rw [hmeets]; decide)
    refine List.pairwise_of_forall_mem_list ?_
    intro first hfirst second hsecond below above hbelow habove
    exact hnone second.1 (hpending second hsecond) first.1
      (hpending first hfirst) below above hbelow habove

/-- The unfoldings in front of a quantifier stand outermost first, in every
order, exactly if none of the gathered places is nested in another one. -/
theorem placesOutermostFirst_iff (vars : List LocalVar)
    (triggers : List (List Expr)) (body : Expr) (pos : Position) :
    PlacesOutermostFirst vars triggers body pos ↔ NoneNested body :=
  ⟨noneNested_of_placesOutermostFirst, placesOutermostFirst_of_noneNested⟩

/-- Both places that put unfoldings around an expression do so outermost first
exactly if the keys of the map print apart and no two unfoldings gathered from
the quantifier are nested. -/
theorem outermostFirst_iff (unfoldingMap : UnfoldingMap)
    (hpath : ∀ key ∈ unfoldingMap.keys, isPath key = true)
    (vars : List LocalVar) (triggers : List (List Expr)) (body : Expr) (pos : Position) :
    (RestoresOutermostFirst unfoldingMap ↔ PrintsApart unfoldingMap.keys) ∧
      (PlacesOutermostFirst vars triggers body pos ↔ NoneNested body) :=
  ⟨restoresOutermostFirst_iff hpath, placesOutermostFirst_iff vars triggers body pos⟩

end Prusti.Optimizations.QuantifierFixer

namespace Prusti.Optimizations.Folding.Witness

open Prusti.Lib Prusti.Vir Prusti.Optimizations.QuantifierFixer

def pairVar : Expr := .localVar ⟨"_1", .typedRef "Pair"⟩ Position.default

def enumField : Expr := .field pairVar ⟨"f$e", .typedRef "E"⟩ Position.default

def enumVariant : Expr := .variant enumField ⟨"enum_Some", .typedRef "E$Some"⟩ Position.default

def otherField : Expr := .field pairVar ⟨"f$e1", .typedRef "F"⟩ Position.default

/-- Two fields of which the name of one starts with that of the other. -/
def cyclicMap : UnfoldingMap :=
  HashMap.ofList [(enumField, "E", .read, some ⟨"Some"⟩),
    (enumVariant, "E$Some", .read, none), (otherField, "F", .read, none)]

/-- The unfolding of a field inside of that of the variable. -/
def nestedBody : Expr :=
  .unfolding "Pair" [pairVar]
    (.unfolding "F" [otherField] (.const (.bool true) Position.default) .read none Position.default)
    .read none Position.default

theorem isPath_cyclicMap : ∀ key ∈ cyclicMap.keys, isPath key = true := by
  decide

theorem keys_cyclicMap : cyclicMap.keys = [enumField, enumVariant, otherField] := rfl

theorem pendingUnfoldings_nestedBody : pendingUnfoldings nestedBody =
    [("Pair", [pairVar]), ("F", [otherField])] := rfl

/-- The comparator is cyclic, and the quantifier may end up with the unfolding
of the variable inside. -/
theorem not_outermostFirst :
    (∀ key ∈ cyclicMap.keys, isPath key = true) ∧
      ¬ RestoresOutermostFirst cyclicMap ∧
      ¬ PlacesOutermostFirst [] [] nestedBody Position.default := by
  refine ⟨isPath_cyclicMap, fun h => ?_, fun h => ?_⟩
  · have hkeys := keys_cyclicMap
    have hlt := h.orders.trans enumVariant (by simp [hkeys]) enumField
      (by simp [hkeys]) otherField (by simp [hkeys]) (by decide) (by decide)
    exact absurd hlt (by decide)
  · have hnested := (placesOutermostFirst_iff _ _ _ _).mp h
    rcases hnested with hmeets | hnested
    · exact absurd hmeets (by decide)
    · rw [pendingUnfoldings_nestedBody] at hnested
      have hnot := hnested ("F", [otherField])
        (List.mem_cons_of_mem _ List.mem_cons_self) ("Pair", [pairVar])
        List.mem_cons_self otherField pairVar rfl rfl
      exact absurd hnot (by decide)

theorem outermostFirst_iff_cyclicMap :
    (RestoresOutermostFirst cyclicMap ↔ PrintsApart cyclicMap.keys) ∧
      (PlacesOutermostFirst [] [] nestedBody Position.default ↔ NoneNested nestedBody) :=
  outermostFirst_iff cyclicMap isPath_cyclicMap [] [] nestedBody Position.default

end Prusti.Optimizations.Folding.Witness

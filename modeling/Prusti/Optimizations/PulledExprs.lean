/-
What the replacer pulls out of the body of a quantifier.  The replaced body is the
body with variables in the places of the pulled out nodes, and every variable stands
for the node that is bound to it by a let.
-/
import Prusti.Optimizations.QuantifierFixer
import Prusti.Vir.TotalEval

namespace Prusti.Vir.Expr

open Prusti.Lib

theorem find_eq (expr target : Expr) :
    expr.find target = ((expr == target) || expr.children.any (·.find target)) := by
  rw [find, walked_eq, List.any_cons, List.any_flatten, List.any_map]
  rfl

theorem find_iff {expr target : Expr} :
    expr.find target = true ↔ (expr == target) = true ∨
      ∃ child ∈ expr.children, child.find target = true := by
  rw [find_eq, Bool.or_eq_true, List.any_eq_true]

theorem beq_ofLocal_rebuild {expr : Expr} {parts : List Expr}
    (h : parts.length = expr.children.length) (var : LocalVar) :
    (expr.rebuild parts == ofLocal var) = (expr == ofLocal var) :=
  apply_rebuild (f := fun expr => expr == ofLocal var) (by intro expr; cases expr <;> rfl) h

theorem find_rebuild {expr : Expr} {parts : List Expr} {var : LocalVar}
    (h : List.Forall₂ (fun child part => part.find (ofLocal var) = child.find (ofLocal var))
      expr.children parts) :
    (expr.rebuild parts).find (ofLocal var) = expr.find (ofLocal var) := by
  have hlength := h.length_eq.symm
  have hparts : parts.map (·.find (ofLocal var)) = expr.children.map (·.find (ofLocal var)) := by
    rw [← List.forall₂_eq_eq_eq, List.forall₂_map_left_iff, List.forall₂_map_right_iff]
    exact h.flip
  have hany : parts.any (·.find (ofLocal var)) = expr.children.any (·.find (ofLocal var)) := by
    have hmap := congrArg (List.any · id) hparts
    simpa only [List.any_map, Function.id_comp] using hmap
  rw [find_eq, find_eq expr, children_rebuild hlength, beq_ofLocal_rebuild hlength, hany]

/-- The search does not tell equal expressions apart. -/
theorem find_congr (left : Expr) {target : Expr} :
    ∀ right : Expr, (left == right) = true → left.find target = right.find target := by
  induction left using Expr.children_induction with
  | h left ih _ =>
  intro right h
  have hchildren : left.children.map (·.find target) = right.children.map (·.find target) := by
    rw [← List.forall₂_eq_eq_eq, List.forall₂_map_left_iff, List.forall₂_map_right_iff]
    refine forall₂_imp_mem (forall₂_children_of_beq h) ?_
    intro child hchild child' _ hbeq
    exact ih child hchild child' hbeq
  have hany := congrArg (List.any · id) hchildren
  rw [find_eq, find_eq right, BEq.congr_left h]
  simpa only [List.any_map, Function.id_comp] using congrArg ((right == target) || ·) hany

/-- A variable that is found is mentioned. -/
theorem mem_names_of_find {expr : Expr} {var : LocalVar}
    (h : expr.find (ofLocal var) = true) : var.name ∈ expr.names := by
  induction expr using Expr.children_induction with
  | h expr ih _ =>
  rw [find_iff] at h
  rcases h with h | ⟨child, hchild, h⟩
  · cases expr with
    | localVar var' pos =>
      have hname := ((LocalVar.beq_iff var' var).mp h).1
      exact mem_names_iff.mpr (.inl (List.mem_singleton.mpr hname.symm))
    | _ => exact absurd h Bool.false_ne_true
  · exact names_child hchild (ih child hchild h)

end Prusti.Vir.Expr

namespace Prusti.Optimizations.QuantifierFixer

open Prusti.Lib Prusti.Vir

variable {node expr expr' : Expr} {entries : List (Expr × LocalVar)}

section Fold

variable {σ : Type}

/-- Folding the sub-expressions one by one: what every fold keeps is kept, and what
is reached stays. -/
theorem foldAll_spec {P : σ → Prop} {L : σ → σ → Prop} {Q : σ → Expr → Expr → Prop}
    (hrefl : ∀ state, L state state)
    (htrans : ∀ state state' state'', L state state' → L state' state'' → L state state'')
    (hmono : ∀ state state' expr expr', L state state' → Q state expr expr' → Q state' expr expr')
    {f : Expr → Folder σ} {exprs : List Expr}
    (h : ∀ expr ∈ exprs, ∀ state expr' state', P state →
      f expr state = some (expr', state') → P state' ∧ L state state' ∧ Q state' expr expr')
    {state : σ} (hstate : P state) {exprs' : List Expr} {state' : σ}
    (hfold : foldAll (exprs.map f) state = some (exprs', state')) :
    P state' ∧ L state state' ∧ List.Forall₂ (Q state') exprs exprs' := by
  induction exprs generalizing state exprs' with
  | nil =>
    cases hfold
    exact ⟨hstate, hrefl _, .nil⟩
  | cons expr exprs ih =>
    rw [List.forall_mem_cons] at h
    simp only [List.map_cons, foldAll, Option.bind_eq_bind, Option.bind_eq_some_iff] at hfold
    obtain ⟨⟨first, middle⟩, hfirst, ⟨rest, last⟩, hrest, heq⟩ := hfold
    cases heq
    obtain ⟨hmiddle, hle, hQ⟩ := h.1 _ first middle hstate hfirst
    obtain ⟨hlast, hle', hQs⟩ := ih h.2 hmiddle hrest
    exact ⟨hlast, htrans _ _ _ hle hle', .cons (hmono _ _ _ _ hle' hQ) hQs⟩

theorem defaultFold_eq_some {folds : List (Folder σ)} {state state' : σ}
    (h : defaultFold node folds state = some (expr, state')) :
    ∃ parts, foldAll folds state = some (parts, state') ∧ expr = node.rebuild parts := by
  simp only [defaultFold, Option.bind_eq_bind, Option.bind_eq_some_iff] at h
  obtain ⟨⟨parts, state''⟩, hfold, heq⟩ := h
  cases heq
  exact ⟨parts, hfold, rfl⟩

end Fold

/-- The nodes that are pulled out of a quantifier that binds the variables. -/
def isPulled (vars : List LocalVar) : Expr → Bool
  | .labelledOld _ base _ => base.isPlace
  | .binOp _ left right _ =>
    !(Replacer.containsBounded vars left || Replacer.containsBounded vars right)
  | .field base _ _ => base.isLocal
  | _ => false

/-- The nodes that are not entered. -/
def isKept : Expr → Bool
  | .labelledOld _ _ _ | .field _ _ _ | .forAll _ _ _ _ => true
  | _ => false

/-- The nodes that are pulled out of an expression. -/
def pulledNodes (vars : List LocalVar) (expr : Expr) : List Expr :=
  expr.para fun node parts _ =>
    if isPulled vars node then [node] else if isKept node then [] else parts.flatten

/-- The variable stands for the node. -/
def Linked (entries : List (Expr × LocalVar)) (node : Expr) (var : LocalVar) : Prop :=
  ∃ key, (key, var) ∈ entries ∧ (key = node ∨ (key == node) = true)

/-- The second expression is the first one with variables for the pulled out nodes. -/
def Abstracts (vars : List LocalVar) (entries : List (Expr × LocalVar)) (expr : Expr) :
    Expr → Prop :=
  expr.para fun node parts _ expr' =>
    if isPulled vars node then ∃ var pos, expr' = .localVar var pos ∧ Linked entries node var
    else if isKept node then expr' = node
    else ∃ exprs, List.Forall₂ (fun part expr => part expr) parts exprs ∧ expr' = node.rebuild exprs

section Replaced

variable {vars : List LocalVar}

theorem pulledNodes_eq (expr : Expr) :
    pulledNodes vars expr = if isPulled vars expr then [expr] else
      if isKept expr then [] else (expr.children.map (pulledNodes vars)).flatten :=
  Expr.para_eq _ expr

theorem abstracts_iff :
    Abstracts vars entries expr expr' ↔
      if isPulled vars expr then
        ∃ var pos, expr' = .localVar var pos ∧ Linked entries expr var
      else if isKept expr then expr' = expr
      else ∃ exprs, List.Forall₂ (Abstracts vars entries) expr.children exprs ∧
        expr' = expr.rebuild exprs := by
  rw [Abstracts, Expr.para_eq]
  simp only [List.forall₂_map_left_iff]
  rfl

theorem Linked.mono {entries' : List (Expr × LocalVar)} (h : entries ⊆ entries') {var : LocalVar}
    (hlinked : Linked entries node var) :
    Linked entries' node var := by
  obtain ⟨key, hmem, hkey⟩ := hlinked
  exact ⟨key, h hmem, hkey⟩

theorem abstracts_pull (h : isPulled vars expr = true) {var : LocalVar}
    (hlinked : Linked entries expr var) (pos : Position) :
    Abstracts vars entries expr (.localVar var pos) := by
  rw [abstracts_iff, if_pos h]
  exact ⟨var, pos, rfl, hlinked⟩

theorem abstracts_keep (h : isPulled vars expr = false) (hkept : isKept expr = true) :
    Abstracts vars entries expr expr := by
  rw [abstracts_iff, if_neg (Bool.eq_false_iff.mp h), if_pos hkept]

theorem abstracts_node {exprs : List Expr} (h : isPulled vars expr = false)
    (hkept : isKept expr = false)
    (hparts : List.Forall₂ (Abstracts vars entries) expr.children exprs) :
    Abstracts vars entries expr (expr.rebuild exprs) := by
  rw [abstracts_iff, if_neg (Bool.eq_false_iff.mp h), if_neg (Bool.eq_false_iff.mp hkept)]
  exact ⟨exprs, hparts, rfl⟩

theorem Abstracts.inversion (h : Abstracts vars entries expr expr') :
    (isPulled vars expr = true ∧ ∃ var pos, expr' = .localVar var pos ∧ Linked entries expr var) ∨
      (isPulled vars expr = false ∧ isKept expr = true ∧ expr' = expr) ∨
      (isPulled vars expr = false ∧ isKept expr = false ∧
        ∃ exprs, List.Forall₂ (Abstracts vars entries) expr.children exprs ∧
          expr' = expr.rebuild exprs) := by
  rw [abstracts_iff] at h
  cases hpulled : isPulled vars expr with
  | true =>
    rw [if_pos hpulled] at h
    exact .inl ⟨rfl, h⟩
  | false =>
    rw [if_neg (Bool.eq_false_iff.mp hpulled)] at h
    cases hkept : isKept expr with
    | true =>
      rw [if_pos hkept] at h
      exact .inr (.inl ⟨rfl, rfl, h⟩)
    | false =>
      rw [if_neg (Bool.eq_false_iff.mp hkept)] at h
      exact .inr (.inr ⟨rfl, rfl, h⟩)

theorem Abstracts.mono {entries' : List (Expr × LocalVar)} (h : entries ⊆ entries') (expr : Expr) :
    ∀ expr', Abstracts vars entries expr expr' → Abstracts vars entries' expr expr' := by
  induction expr using Expr.children_induction with
  | h expr ih _ =>
  intro expr' habs
  rcases habs.inversion with ⟨hpulled, var, pos, rfl, hlinked⟩ | ⟨hpulled, hkept, rfl⟩ |
    ⟨hpulled, hkept, exprs, hparts, rfl⟩
  · exact abstracts_pull hpulled (hlinked.mono h) pos
  · exact abstracts_keep hpulled hkept
  · refine abstracts_node hpulled hkept (forall₂_imp_mem hparts ?_)
    intro child hchild part _ hpart
    exact ih child hchild part hpart

/-- What is pulled out of a part is pulled out. -/
theorem mem_pulledNodes_of_child {child : Expr} (h : isPulled vars expr = false)
    (hkept : isKept expr = false) (hchild : child ∈ expr.children)
    (hnode : node ∈ pulledNodes vars child) : node ∈ pulledNodes vars expr := by
  rw [pulledNodes_eq, if_neg (Bool.eq_false_iff.mp h), if_neg (Bool.eq_false_iff.mp hkept)]
  exact List.mem_flatten.mpr ⟨_, List.mem_map_of_mem hchild, hnode⟩

/-- The three ways in which the replacer treats a node. -/
theorem replacerNode_eq (node : Expr) (folds : List (Folder Replacer)) (replacer : Replacer) :
    Replacer.foldNode vars node folds replacer =
      if isPulled vars node then replacer.replaceBy node node.getType node.pos
      else if isKept node then some (node, replacer)
      else defaultFold node folds replacer := by
  cases node with
  | binOp kind left right pos =>
    cases h : Replacer.containsBounded vars left || Replacer.containsBounded vars right with
    | true =>
      have hpulled : isPulled vars (.binOp kind left right pos) = false := congrArg (!·) h
      rw [if_neg (Bool.eq_false_iff.mp hpulled)]
      exact if_pos h
    | false =>
      have hpulled : isPulled vars (.binOp kind left right pos) = true := congrArg (!·) h
      rw [if_pos hpulled]
      exact if_neg (Bool.eq_false_iff.mp h)
  | _ => rfl

theorem replacerFold_eq (expr : Expr) (replacer : Replacer) :
    Replacer.fold vars expr replacer =
      if isPulled vars expr then replacer.replaceBy expr expr.getType expr.pos
      else if isKept expr then some (expr, replacer)
      else defaultFold expr (expr.children.map (Replacer.fold vars)) replacer := by
  rw [← replacerNode_eq]
  exact congrFun (Expr.para_eq _ expr) replacer

/-- The lets are numbered from the first one on. -/
structure Numbered (first : Nat) (replacer : Replacer) : Prop where
  names : replacer.map.entries.map (·.2.name) =
    (List.range' first replacer.map.entries.length).map letName
  counter : replacer.counter = first + replacer.map.entries.length

/-- One replacement adds at most one let, for the expression itself. -/
theorem replaceBy_spec {first : Nat} {replacer replacer' : Replacer} {typ : Option Typ}
    {pos : Position} (hnumbered : Numbered first replacer)
    (h : replacer.replaceBy expr typ pos = some (expr', replacer')) :
    Numbered first replacer' ∧ replacer.map.entries ⊆ replacer'.map.entries ∧
      (∀ entry ∈ replacer'.map.entries, entry ∈ replacer.map.entries ∨ entry.1 = expr) ∧
      ∃ var, expr' = .localVar var pos ∧ Linked replacer'.map.entries expr var := by
  unfold Replacer.replaceBy at h
  split at h
  · next var hget =>
      cases h
      obtain ⟨entry, hmem, hkey, rfl⟩ := exists_mem_of_lookup_eq_some hget
      exact ⟨hnumbered, List.Subset.refl _, fun _ => .inl, entry.2, rfl, entry.1, hmem, .inr hkey⟩
  · next hget =>
      cases typ with
      | none => cases h
      | some typ =>
        cases h
        have hentries : (replacer.map.insert expr (replacer.constructFreshLocal typ)).entries =
            replacer.map.entries ++ [(expr, replacer.constructFreshLocal typ)] := by
          have hcontains := (HashMap.contains_eq_false_iff replacer.map expr).mpr hget
          simp [HashMap.insert, hcontains]
        refine ⟨⟨?_, ?_⟩, ?_, ?_, _, rfl, expr, ?_, .inl rfl⟩
        · simp only [hentries]
          rw [List.map_append, hnumbered.names, List.length_append, List.length_singleton,
            List.range'_concat, List.map_append]
          simp [Replacer.constructFreshLocal, hnumbered.counter]
        · simp only [hentries]
          rw [hnumbered.counter, List.length_append, List.length_singleton]
          exact Nat.add_assoc _ _ _
        · simp only [hentries]
          exact List.subset_append_left _ _
        · simp only [hentries]
          intro entry hentry
          rcases List.mem_append.mp hentry with hold | hnew
          · exact .inl hold
          · cases List.mem_singleton.mp hnew
            exact .inr rfl
        · simp only [hentries]
          exact List.mem_append_right _ (List.mem_singleton.mpr rfl)

/-- The replacer abstracts from the nodes that it pulls out, and binds nothing else. -/
theorem replacerFold_spec {first : Nat} {keys : List Expr} (expr : Expr) :
    ∀ replacer expr' replacer', pulledNodes vars expr ⊆ keys →
      (Numbered first replacer ∧ ∀ entry ∈ replacer.map.entries, entry.1 ∈ keys) →
      Replacer.fold vars expr replacer = some (expr', replacer') →
      (Numbered first replacer' ∧ ∀ entry ∈ replacer'.map.entries, entry.1 ∈ keys) ∧
        replacer.map.entries ⊆ replacer'.map.entries ∧
        Abstracts vars replacer'.map.entries expr expr' := by
  induction expr using Expr.children_induction with
  | h expr ih _ =>
  intro replacer expr' replacer' hkeys hreplacer h
  rw [replacerFold_eq] at h
  cases hpulled : isPulled vars expr with
  | true =>
    rw [if_pos hpulled] at h
    obtain ⟨hnumbered, hsubset, hnew, var, rfl, hlinked⟩ := replaceBy_spec hreplacer.1 h
    refine ⟨⟨hnumbered, ?_⟩, hsubset, abstracts_pull hpulled hlinked _⟩
    intro entry hentry
    rcases hnew entry hentry with hold | hexpr
    · exact hreplacer.2 entry hold
    · apply hkeys
      rw [pulledNodes_eq, if_pos hpulled, hexpr]
      exact List.mem_singleton.mpr rfl
  | false =>
    rw [if_neg (Bool.eq_false_iff.mp hpulled)] at h
    cases hkept : isKept expr with
    | true =>
      rw [if_pos hkept] at h
      cases h
      exact ⟨hreplacer, List.Subset.refl _, abstracts_keep hpulled hkept⟩
    | false =>
      rw [if_neg (Bool.eq_false_iff.mp hkept)] at h
      obtain ⟨parts, hfold, rfl⟩ := defaultFold_eq_some h
      obtain ⟨hlast, hsubset, hparts⟩ := foldAll_spec
        (P := fun replacer => Numbered first replacer ∧
          ∀ entry ∈ replacer.map.entries, entry.1 ∈ keys)
        (L := fun replacer replacer' => replacer.map.entries ⊆ replacer'.map.entries)
        (Q := fun replacer => Abstracts vars replacer.map.entries)
        (fun _ => List.Subset.refl _) (fun _ _ _ => List.Subset.trans)
        (fun _ _ child part hle hpart => hpart.mono hle child part)
        (fun child hchild replacer part replacer' => ih child hchild replacer part replacer'
          (fun _ hnode => hkeys (mem_pulledNodes_of_child hpulled hkept hchild hnode)))
        hreplacer hfold
      exact ⟨hlast, hsubset, abstracts_node hpulled hkept hparts⟩

end Replaced

end Prusti.Optimizations.QuantifierFixer

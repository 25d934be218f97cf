/-
What the passes of `fix_quantifiers` keep of an expression: scopes, values, and which of
its nodes may be moved.
-/
import Prusti.Optimizations.MovableExprs

namespace Prusti.Optimizations.QuantifierFixer

open Prusti.Lib Prusti.Vir

variable {isVar' : String → Prop} {expr expr' : Expr} {vars : List LocalVar} {levels : List Level}

/-- What both passes keep of an expression.  Only the `new` names may be added, and the
variables with the other names in question are found as before. -/
structure Keeps (new isVar : String → Prop) (expr expr' : Expr) : Prop where
  free : expr'.free ⊆ expr.free
  names : ∀ name ∈ expr'.names, name ∈ expr.names ∨ new name
  types : expr'.quantTypes ⊆ expr.quantTypes
  find : ∀ var : LocalVar, isVar var.name → expr'.find (.ofLocal var) = expr.find (.ofLocal var)
  place : expr'.isPlace = expr.isPlace
  isLocal : (stripped expr').isLocal = (stripped expr).isLocal
  location : isLocation expr' = isLocation expr
  meaning : ∀ M : TotalModel, M.meaning expr' = M.meaning expr

section Keeps

variable {new isVar : String → Prop}

theorem Keeps.refl (expr : Expr) : Keeps new isVar expr expr :=
  ⟨List.Subset.refl _, fun _ => .inl, List.Subset.refl _, fun _ _ => rfl, rfl, rfl, rfl,
    fun _ => rfl⟩

theorem Keeps.mono {new' : String → Prop} (h : Keeps new isVar expr expr')
    (hnew : ∀ name, new name → new' name) (hvar : ∀ name, isVar' name → isVar name) :
    Keeps new' isVar' expr expr' where
  free := h.free
  names name hname := (h.names name hname).imp_right (hnew name)
  types := h.types
  find var hname := h.find var (hvar _ hname)
  place := h.place
  isLocal := h.isLocal
  location := h.location
  meaning := h.meaning

theorem Keeps.trans {new' : String → Prop} {expr'' : Expr} (h : Keeps new isVar expr expr')
    (h' : Keeps new' isVar expr' expr'') :
    Keeps (fun name => new name ∨ new' name) isVar expr expr'' where
  free := List.Subset.trans h'.free h.free
  names name hname := by
    rcases h'.names name hname with hname | hnew
    · exact (h.names name hname).imp_right .inl
    · exact .inr (.inr hnew)
  types := List.Subset.trans h'.types h.types
  find var hvar := (h'.find var hvar).trans (h.find var hvar)
  place := h'.place.trans h.place
  isLocal := h'.isLocal.trans h.isLocal
  location := h'.location.trans h.location
  meaning M := (h'.meaning M).trans (h.meaning M)

/-- The last part of an unfolding is what is unfolded in. -/
theorem rebuild_unfolding {R : Expr → Expr → Prop} {name : String} {args : List Expr}
    {base : Expr} {perm : PermAmount} {index : Option EnumVariantIndex} {pos : Position}
    {parts : List Expr}
    (h : List.Forall₂ R (Expr.unfolding name args base perm index pos).children parts) :
    ∃ part, R base part ∧ (Expr.unfolding name args base perm index pos).rebuild parts =
      .unfolding name parts.dropLast part perm index pos := by
  have hlast : (args ++ [base]).getLast? = some base := List.getLast?_concat
  obtain ⟨part, hpart, hbase⟩ := getLast?_of_forall₂ h hlast
  refine ⟨part, hbase, ?_⟩
  simp only [Expr.rebuild, List.getLastD_eq_getLast?, hpart, Option.getD_some]

/-- The shape of a place, of a variable and of a location. -/
theorem shape_rebuild {node : Expr} {parts : List Expr}
    (h : List.Forall₂ (Keeps new isVar) node.children parts) :
    (node.rebuild parts).isPlace = node.isPlace ∧
      (stripped (node.rebuild parts)).isLocal = (stripped node).isLocal ∧
      isLocation (node.rebuild parts) = isLocation node := by
  cases node with
  | unfolding =>
    obtain ⟨part, hpart, hrebuild⟩ := rebuild_unfolding h
    rw [hrebuild]
    exact ⟨hpart.place, hpart.isLocal, hpart.location⟩
  | variant | field | addrOf | labelledOld =>
    rcases h with _ | ⟨hpart, _ | _⟩
    exact ⟨hpart.place, rfl, by first | rfl | exact hpart.isLocal⟩
  | predicateAccessPredicate | fieldAccessPredicate | unaryOp | snapApp | forAll | exist =>
    rcases h with _ | ⟨_, _ | _⟩
    exact ⟨rfl, rfl, rfl⟩
  | magicWand | binOp | containerOp | letExpr | inhaleExhale | downcast =>
    rcases h with _ | ⟨_, _ | ⟨_, _ | _⟩⟩
    exact ⟨rfl, rfl, rfl⟩
  | cond =>
    rcases h with _ | ⟨_, _ | ⟨_, _ | ⟨_, _ | _⟩⟩⟩
    exact ⟨rfl, rfl, rfl⟩
  | localVar | const | seq | funcApp | domainFuncApp => exact ⟨rfl, rfl, rfl⟩

/-- The default fold keeps what the parts keep. -/
theorem Keeps.rebuild {node : Expr} {parts : List Expr}
    (h : List.Forall₂ (Keeps new isVar) node.children parts) :
    Keeps new isVar node (node.rebuild parts) where
  free name hname := by
    have hfree := Expr.mem_free_rebuild (fun _ => False)
      (h.imp fun _ _ hpart _ hname => .inl (hpart.free hname)) hname
    exact hfree.resolve_right id
  names _ hname := Expr.mem_names_rebuild new (h.imp fun _ _ hpart => hpart.names) hname
  types := Expr.quantTypes_rebuild (h.imp fun _ _ hpart => hpart.types)
  find var hvar := Expr.find_rebuild (h.imp fun _ _ hpart => hpart.find var hvar)
  place := (shape_rebuild h).1
  isLocal := (shape_rebuild h).2.1
  location := (shape_rebuild h).2.2
  meaning M := by
    have hparts : parts.map M.meaning = node.children.map M.meaning := by
      rw [← List.forall₂_eq_eq_eq, List.forall₂_map_left_iff, List.forall₂_map_right_iff]
      exact List.Forall₂.flip (h.imp fun _ _ hpart => hpart.meaning M)
    rw [meaning_rebuild h.length_eq.symm, hparts, TotalModel.meaning_eq M node]

theorem containsBounded_congr (hvars : ∀ var ∈ vars, isVar var.name)
    (h : Keeps new isVar expr expr') :
    Replacer.containsBounded vars expr' = Replacer.containsBounded vars expr := by
  unfold Replacer.containsBounded
  rw [Bool.eq_iff_iff, List.any_eq_true, List.any_eq_true]
  refine exists_congr fun var => and_congr_right fun hvar => ?_
  rw [h.find var (hvars var hvar)]

theorem mayPull_rebuild (hvars : ∀ var ∈ vars, isVar var.name) {node : Expr} {parts : List Expr}
    (h : List.Forall₂ (Keeps new isVar) node.children parts) :
    mayPull vars (node.rebuild parts) = mayPull vars node := by
  cases node with
  | field =>
    rcases h with _ | ⟨hpart, _ | _⟩
    exact hpart.isLocal
  | labelledOld =>
    rcases h with _ | ⟨hpart, _ | _⟩
    exact hpart.place
  | binOp =>
    rcases h with _ | ⟨hleft, _ | ⟨hright, _ | _⟩⟩
    simp only [Expr.rebuild, mayPull, isPulled, containsBounded_congr hvars hleft,
      containsBounded_congr hvars hright]
  | variant | addrOf | predicateAccessPredicate | fieldAccessPredicate | unaryOp | snapApp
  | forAll | exist =>
    rcases h with _ | ⟨_, _ | _⟩
    rfl
  | magicWand | containerOp | letExpr | inhaleExhale | downcast =>
    rcases h with _ | ⟨_, _ | ⟨_, _ | _⟩⟩
    rfl
  | cond =>
    rcases h with _ | ⟨_, _ | ⟨_, _ | ⟨_, _ | _⟩⟩⟩
    rfl
  | localVar | const | seq | funcApp | domainFuncApp | unfolding => rfl

theorem treatment_rebuild {node : Expr} {parts : List Expr}
    (h : parts.length = node.children.length) :
    treatment (node.rebuild parts) = treatment node :=
  Expr.apply_rebuild (by intro node; cases node <;> rfl) h

theorem Level.allows_of_free {level : Level} (h : expr'.free ⊆ expr.free)
    (hallows : level.allows expr = true) : level.allows expr' = true := by
  rw [Level.allows_iff] at hallows ⊢
  exact fun name hname => hallows name (h hname)

end Keeps

section Moves

variable {new isVar : String → Prop} {types : Option (List Typ)} {done done' : Bool}

/-- The names of the levels are among the names in question. -/
def Within (isVar : String → Prop) (levels : List Level) : Prop :=
  ∀ level ∈ levels, (∀ var ∈ level.vars, isVar var.name) ∧ ∀ name ∈ level.crossed, isVar name

/-- What may be moved in the first expression may be moved in the second one. -/
def Moves (types : Option (List Typ)) (done done' : Bool) (isVar : String → Prop)
    (expr expr' : Expr) : Prop :=
  ∀ levels, Within isVar levels → isMovable types done expr levels = true →
    isMovable types done' expr' levels = true

theorem Within.mono (h : Within isVar levels) (himp : ∀ name, isVar name → isVar' name) :
    Within isVar' levels :=
  fun level hlevel => ⟨fun var hvar => himp _ ((h level hlevel).1 var hvar),
    fun name hname => himp name ((h level hlevel).2 name hname)⟩

theorem Moves.mono (h : Moves types done done' isVar expr expr')
    (himp : ∀ name, isVar' name → isVar name) :
    Moves types done done' isVar' expr expr' :=
  fun levels hlevels => h levels (hlevels.mono himp)

theorem within_nil : Within isVar [] := fun _ => (nomatch ·)

theorem within_cons {level : Level} (hvars : ∀ var ∈ level.vars, isVar var.name)
    (hcrossed : ∀ name ∈ level.crossed, isVar name) (h : Within isVar levels) :
    Within isVar (level :: levels) := by
  intro other hother
  rcases List.mem_cons.mp hother with rfl | hother
  · exact ⟨hvars, hcrossed⟩
  · exact h other hother

/-- Inside of a quantifier there is one level more. -/
theorem within_ofVars (h : Within isVar levels) :
    Within (fun name => name ∈ vars.map (·.name) ∨ isVar name) (Level.ofVars vars :: levels) :=
  within_cons (fun _ hvar => .inl (List.mem_map_of_mem hvar)) (fun _ hname => .inl hname)
    (h.mono fun _ => .inr)

/-- The parts of a node with the names that are bound in them. -/
def MovesAll (types : Option (List Typ)) (done done' : Bool) (isVar : String → Prop) (node : Expr)
    (parts : List Expr) : Prop :=
  List.Forall₂ (fun child part =>
    Moves types done done' (fun name => name ∈ child.1 ∨ isVar name) child.2 part)
    (node.binders.zip node.children) parts

theorem MovesAll.parts {node : Expr} {parts : List Expr}
    (h : MovesAll types done done' isVar node parts) :
    List.Forall₂ (Moves types done done' isVar) node.children parts := by
  rw [← Expr.zip_map_snd_binders node, List.forall₂_map_left_iff]
  exact h.imp fun _ _ hpart => hpart.mono fun _ => .inr

theorem MovesAll.quantifier {node : Expr} {parts : List Expr}
    (h : MovesAll types done done' isVar node parts) (hnode : treatment node = .quantifier vars) :
    List.Forall₂ (Moves types done done' fun name => name ∈ vars.map (·.name) ∨ isVar name)
      node.children parts := by
  cases node with
  | forAll vars triggers body pos =>
    cases hnode
    rcases h with _ | ⟨hpart, _ | _⟩
    exact .cons hpart .nil
  | _ => cases hnode

theorem all_map_iff {exprs : List Expr} :
    ((exprs.map (isMovable types done)).all fun part => part levels) = true ↔
      ∀ expr ∈ exprs, isMovable types done expr levels = true := by
  rw [List.all_map, List.all_eq_true]
  rfl

/-- The parts at the same levels. -/
theorem all_of_movesAll {node : Expr} {parts : List Expr}
    (h : List.Forall₂ (Moves types done done' isVar) node.children parts)
    (hlevels : Within isVar levels)
    (hall : ((node.children.map (isMovable types done)).all fun part => part levels) = true) :
    ((parts.map (isMovable types done')).all fun part => part levels) = true := by
  rw [all_map_iff] at hall ⊢
  intro part hpart
  obtain ⟨child, hchild, hmoves⟩ := exists_of_forall₂_mem_right h hpart
  exact hmoves levels hlevels (hall child hchild)

/-- The default fold keeps what may be moved. -/
theorem moves_rebuild (hdone : done = true → done' = true) {node : Expr} {parts : List Expr}
    (hkeeps : List.Forall₂ (Keeps new isVar) node.children parts)
    (hmoves : MovesAll types done done' isVar node parts)
    (hquiet : treatment node = .wand → ∀ vars : List LocalVar,
      (∀ var ∈ vars, isVar var.name) → node.children.all (isQuiet vars) = true →
        parts.all (isQuiet vars) = true) :
    Moves types done done' isVar node (node.rebuild parts) := by
  have hlength := hkeeps.length_eq.symm
  have hor : ∀ {levels : List Level} {isVar' : String → Prop},
      List.Forall₂ (Moves types done done' isVar') node.children parts → Within isVar' levels →
      (done || (node.children.map (isMovable types done)).all fun part => part levels) = true →
      (done' || (parts.map (isMovable types done')).all fun part => part levels) = true := by
    intro levels isVar' hparts hlevels h
    rw [Bool.or_eq_true] at h ⊢
    exact h.imp hdone (all_of_movesAll hparts hlevels)
  intro levels hlevels h
  rw [isMovable_eq, Expr.children_rebuild hlength]
  rw [isMovable_eq] at h
  induction levels with
  | nil =>
    unfold isMovableNode at h ⊢
    rw [treatment_rebuild hlength]
    split at h
    · rfl
    · next vars hnode =>
        exact hor (hmoves.quantifier hnode) (within_ofVars within_nil) h
    · exact hor hmoves.parts within_nil h
  | cons level levels ih =>
    have hlevel := hlevels level List.mem_cons_self
    have hrest : Within isVar levels :=
      fun other hother => hlevels other (List.mem_cons_of_mem _ hother)
    unfold isMovableNode at h ⊢
    rw [mayPull_rebuild hlevel.1 hkeeps, treatment_rebuild hlength,
      Expr.children_rebuild hlength, Expr.binders_rebuild hlength]
    split at h
    · next hpull =>
        rw [if_pos hpull]
        rw [Bool.and_eq_true, Bool.and_eq_true] at h ⊢
        have hkeep := Keeps.rebuild hkeeps
        exact ⟨⟨isAmong_of_subset hkeep.types h.1.1, Level.allows_of_free hkeep.free h.1.2⟩,
          ih hrest h.2⟩
    · next hpull =>
        rw [if_neg hpull]
        cases hnode : treatment node with
        | kept =>
          rw [hnode] at h
          exact hor hmoves.parts within_nil h
        | quantifier vars =>
          rw [hnode] at h
          exact hor (hmoves.quantifier hnode) (within_ofVars hlevels) h
        | wand =>
          rw [hnode] at h
          exact hquiet hnode level.vars hlevel.1 h
        | access =>
          rw [hnode, Bool.and_eq_true] at h
          rw [Bool.and_eq_true]
          refine ⟨?_, all_of_movesAll hmoves.parts hlevels h.2⟩
          rw [List.all_eq_true] at h ⊢
          intro part hpart
          obtain ⟨child, hchild, hkeep⟩ := exists_of_forall₂_mem_right hkeeps hpart
          rw [hkeep.location]
          exact h.1 child hchild
        | entered =>
          rw [hnode] at h
          rw [List.zip_map_right, List.all_eq_true, List.forall_mem_map] at h ⊢
          rintro ⟨bound, part⟩ hmem
          obtain ⟨index, hindex⟩ := List.mem_iff_getElem?.mp hmem
          rw [List.getElem?_zip_eq_some] at hindex
          obtain ⟨⟨bound', child⟩, hchild, hmove⟩ :=
            forall₂_getElem? (List.Forall₂.flip hmoves) hindex.2
          have hbound : bound' = bound := by
            have hget := (List.getElem?_zip_eq_some.mp hchild).1
            rw [hindex.1] at hget
            exact (Option.some.inj hget).symm
          subst hbound
          refine hmove _ ?_ (h _ (List.mem_iff_getElem?.mpr ⟨index, hchild⟩))
          refine within_cons (fun var hvar => .inr (hlevel.1 var hvar)) ?_
            (hrest.mono fun _ => .inr)
          intro name hname
          exact (List.mem_append.mp hname).imp_right (hlevel.2 name)

end Moves

end Prusti.Optimizations.QuantifierFixer

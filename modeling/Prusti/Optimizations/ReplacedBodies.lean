/-
The lets around a quantifier: they and the quantifier with the replaced body mean what
the quantifier means.
-/
import Prusti.Optimizations.KeptExprs

namespace Prusti.Optimizations.QuantifierFixer

open Prusti.Lib Prusti.Vir

variable {body expr node : Expr} {name : String} {entry : Expr × LocalVar}
  {counter counter' first : Nat}

section WrapLets

variable {pos : Position} {types : Option (List Typ)}

variable {entries : List (Expr × LocalVar)}

theorem mem_free_letExpr {var : LocalVar} {value : Expr} :
    name ∈ (Expr.letExpr var value body pos).free ↔
      name ∈ value.free ∨ (name ∈ body.free ∧ name ≠ var.name) := by
  rw [Expr.free_eq]
  simp [Expr.freeNode, Expr.children]

theorem mem_names_letExpr {var : LocalVar} {value : Expr} :
    name ∈ (Expr.letExpr var value body pos).names ↔
      name = var.name ∨ name ∈ value.names ∨ name ∈ body.names := by
  rw [Expr.mem_names_iff]
  simp [Expr.ownNames, Expr.children, Expr.triggers]

theorem isLet_cons : IsLet (entry :: entries) name ↔ entry.2.name = name ∨ IsLet entries name := by
  simp [IsLet]

theorem mem_free_wrapLets (h : name ∈ (wrapLets entries expr pos).free) :
    (∃ entry ∈ entries, name ∈ entry.1.free) ∨ (name ∈ expr.free ∧ ¬ IsLet entries name) := by
  induction entries generalizing expr with
  | nil => exact .inr ⟨h, fun ⟨_, hmem, _⟩ => (nomatch hmem)⟩
  | cons entry entries ih =>
    rcases ih h with ⟨other, hother, hname⟩ | ⟨hname, hnot⟩
    · exact .inl ⟨other, List.mem_cons_of_mem _ hother, hname⟩
    · rcases mem_free_letExpr.mp hname with hname | ⟨hname, hne⟩
      · exact .inl ⟨entry, List.mem_cons_self, hname⟩
      · refine .inr ⟨hname, ?_⟩
        rw [isLet_cons, not_or]
        exact ⟨Ne.symm hne, hnot⟩

theorem mem_names_wrapLets (h : name ∈ (wrapLets entries expr pos).names) :
    (∃ entry ∈ entries, name ∈ entry.1.names) ∨ IsLet entries name ∨ name ∈ expr.names := by
  induction entries generalizing expr with
  | nil => exact .inr (.inr h)
  | cons entry entries ih =>
    rcases ih h with ⟨other, hother, hname⟩ | hlet | hname
    · exact .inl ⟨other, List.mem_cons_of_mem _ hother, hname⟩
    · exact .inr (.inl (isLet_cons.mpr (.inr hlet)))
    · rcases mem_names_letExpr.mp hname with rfl | hname | hname
      · exact .inr (.inl (isLet_cons.mpr (.inl rfl)))
      · exact .inl ⟨entry, List.mem_cons_self, hname⟩
      · exact .inr (.inr hname)

theorem mem_types_wrapLets {typ : Typ} (h : typ ∈ (wrapLets entries expr pos).quantTypes) :
    (∃ entry ∈ entries, typ ∈ entry.1.quantTypes) ∨ typ ∈ expr.quantTypes := by
  induction entries generalizing expr with
  | nil => exact .inr h
  | cons entry entries ih =>
    rcases ih h with ⟨other, hother, htyp⟩ | htyp
    · exact .inl ⟨other, List.mem_cons_of_mem _ hother, htyp⟩
    · have hor : typ ∈ entry.1.quantTypes ∨ typ ∈ expr.quantTypes := by
        rw [Expr.quantTypes_eq] at htyp
        simpa [Expr.ownTypes, Expr.children] using htyp
      exact hor.imp_left fun htyp => ⟨entry, List.mem_cons_self, htyp⟩

theorem find_wrapLets {target : LocalVar} :
    (wrapLets entries expr pos).find (.ofLocal target) = true ↔
      expr.find (.ofLocal target) = true ∨
        ∃ entry ∈ entries, entry.1.find (.ofLocal target) = true := by
  induction entries generalizing expr with
  | nil => simp [wrapLets]
  | cons entry entries ih =>
    have hlet : (Expr.letExpr entry.2 entry.1 expr pos).find (.ofLocal target) = true ↔
        entry.1.find (.ofLocal target) = true ∨ expr.find (.ofLocal target) = true := by
      rw [Expr.find_iff]
      constructor
      · rintro (hself | ⟨child, hchild, hfind⟩)
        · exact absurd hself Bool.false_ne_true
        · simp only [Expr.children, List.mem_cons, List.not_mem_nil, or_false] at hchild
          rcases hchild with rfl | rfl
          · exact .inl hfind
          · exact .inr hfind
      · rintro (hfind | hfind)
        · exact .inr ⟨entry.1, List.mem_cons_self, hfind⟩
        · exact .inr ⟨expr, List.mem_cons_of_mem _ List.mem_cons_self, hfind⟩
    change (wrapLets entries (.letExpr entry.2 entry.1 expr pos) pos).find _ = true ↔ _
    rw [ih, hlet, List.exists_mem_cons_iff]
    tauto

/-- The result of wrapping is the expression itself or a let. -/
theorem wrapLets_cases (entries : List (Expr × LocalVar)) (expr : Expr) (pos : Position) :
    wrapLets entries expr pos = expr ∨
      ∃ var value body, wrapLets entries expr pos = .letExpr var value body pos := by
  induction entries generalizing expr with
  | nil => exact .inl rfl
  | cons entry entries ih =>
    rcases ih (.letExpr entry.2 entry.1 expr pos) with heq | hlet
    · exact .inr ⟨_, _, _, heq⟩
    · exact .inr hlet

/-- The value of the wrapped expression is its value where the variables have the values
of the expressions they are bound to. -/
theorem eval_wrapLets {M : TotalModel} (state : M.State) (env : M.Env)
    (hnodup : (entries.map (·.2.name)).Nodup)
    (hfree : ∀ entry ∈ entries, ∀ name ∈ entry.1.free, ¬ IsLet entries name) (expr : Expr)
    (pos : Position) :
    ∃ env' : M.Env, M.eval (wrapLets entries expr pos) state env = M.eval expr state env' ∧
      (∀ name, ¬ IsLet entries name → env' name = env name) ∧
      ∀ entry ∈ entries, env' entry.2.name = M.eval entry.1 state env := by
  induction entries generalizing expr with
  | nil => exact ⟨env, rfl, fun _ _ => rfl, fun _ => (nomatch ·)⟩
  | cons entry entries ih =>
    rw [List.map_cons, List.nodup_cons] at hnodup
    obtain ⟨env', heval, hother, hlets⟩ := ih hnodup.2
      (fun other hmem name hname hlet => hfree other (List.mem_cons_of_mem _ hmem) name hname
        (isLet_cons.mpr (.inr hlet))) (.letExpr entry.2 entry.1 expr pos)
    have hvalue : M.eval entry.1 state env' = M.eval entry.1 state env := by
      refine TotalModel.eval_congr ?_ state
      intro name hname
      apply hother
      intro hlet
      exact hfree entry List.mem_cons_self name hname (isLet_cons.mpr (.inr hlet))
    refine ⟨env'.bind [entry.2] [M.eval entry.1 state env], ?_, ?_, ?_⟩
    · rw [← hvalue, ← TotalModel.eval_letExpr]
      exact heval
    · intro name hname
      rw [isLet_cons, not_or] at hname
      rw [TotalModel.Env.bind_of_not_mem]
      · exact hother name hname.2
      · simpa using Ne.symm hname.1
    · intro other hmem
      rcases List.mem_cons.mp hmem with rfl | hmem
      · simp [TotalModel.Env.bind]
      · rw [TotalModel.Env.bind_of_not_mem]
        · exact hlets other hmem
        · intro hname
          rw [List.map_singleton, List.mem_singleton] at hname
          exact hnodup.1 (hname ▸ List.mem_map_of_mem hmem)

theorem isMovable_done_nil (expr : Expr) : isMovable types true expr [] = true := by
  rw [isMovable_eq]
  unfold isMovableNode
  split <;> rfl

/-- A name that the expression does not mention may be crossed. -/
theorem isMovable_crossed {vars : List LocalVar} {levels : List Level} (expr : Expr) :
    ∀ crossed crossed', (∀ name ∈ expr.names, name ∈ crossed' → name ∈ crossed) →
      isMovable types true expr (⟨vars, crossed⟩ :: levels) = true →
      isMovable types true expr (⟨vars, crossed'⟩ :: levels) = true := by
  induction expr using Expr.children_induction with
  | h expr ih _ =>
  intro crossed crossed' hnames h
  rw [isMovable_eq] at h ⊢
  unfold isMovableNode at h ⊢
  split at h
  · next hpull =>
      rw [if_pos hpull]
      rw [Bool.and_eq_true, Bool.and_eq_true, Level.allows_iff] at h ⊢
      refine ⟨⟨h.1.1, fun name hname hcrossed => h.1.2 name hname ?_⟩, h.2⟩
      exact hnames name (Expr.free_subset_names expr hname) hcrossed
  · next hpull =>
      rw [if_neg hpull]
      cases hnode : treatment expr with
      | kept | quantifier => rfl
      | wand =>
        rw [hnode] at h
        exact h
      | access =>
        rw [hnode, Bool.and_eq_true, all_map_iff] at h
        rw [Bool.and_eq_true, all_map_iff]
        refine ⟨h.1, fun child hchild => ?_⟩
        exact ih child hchild crossed crossed'
          (fun name hname => hnames name (Expr.names_child hchild hname)) (h.2 child hchild)
      | entered =>
        rw [hnode, List.zip_map_right, List.all_eq_true, List.forall_mem_map] at h
        rw [List.zip_map_right, List.all_eq_true, List.forall_mem_map]
        rintro ⟨bound, child⟩ hmem
        have hchild := (List.of_mem_zip hmem).2
        refine ih child hchild (bound ++ crossed) (bound ++ crossed') ?_ (h _ hmem)
        intro name hname hcrossed
        rw [List.mem_append] at hcrossed ⊢
        exact hcrossed.imp_right (hnames name (Expr.names_child hchild hname))

/-- The lets around a quantifier may be moved if the expressions may. -/
theorem isMovable_wrapLets {levels : List Level} (new : String → Prop)
    (hentries : ∀ entry ∈ entries, new entry.2.name ∧
      isMovable types true entry.1 levels = true ∧ ∀ name ∈ entry.1.names, ¬ new name)
    {vars : List LocalVar} {triggers : List (List Expr)} :
    isMovable types true (wrapLets entries (.forAll vars triggers body pos) pos) levels = true := by
  cases levels with
  | nil => exact isMovable_done_nil _
  | cons level levels =>
    have hstable : ∀ expr, (∀ crossed, (∀ name ∈ crossed, name ∈ level.crossed ∨ new name) →
        isMovable types true expr (⟨level.vars, crossed⟩ :: levels) = true) →
        isMovable types true (wrapLets entries expr pos) (level :: levels) = true := by
      intro expr hexpr
      induction entries generalizing expr with
      | nil => exact hexpr level.crossed fun _ => .inl
      | cons entry entries ih =>
        rw [List.forall_mem_cons] at hentries
        refine ih hentries.2 (.letExpr entry.2 entry.1 expr pos) ?_
        intro crossed hcrossed
        have hvalue : isMovable types true entry.1 (⟨level.vars, crossed⟩ :: levels) = true := by
          refine isMovable_crossed entry.1 level.crossed crossed ?_ hentries.1.2.1
          intro name hname hmem
          exact (hcrossed name hmem).resolve_right (hentries.1.2.2 name hname)
        have hbody : isMovable types true expr
            (⟨level.vars, entry.2.name :: crossed⟩ :: levels) = true := by
          refine hexpr _ ?_
          intro name hname
          rcases List.mem_cons.mp hname with rfl | hname
          · exact .inr hentries.1.1
          · exact hcrossed name hname
        rw [isMovable_eq]
        exact Bool.and_eq_true_iff.mpr ⟨hvalue, Bool.and_eq_true_iff.mpr ⟨hbody, rfl⟩⟩
    refine hstable _ fun crossed _ => ?_
    rw [isMovable_eq]
    rfl

end WrapLets

section Fixed

variable {replacer : Replacer} {vars : List LocalVar} {types : List Typ}

/-- The names of the lets from a number on. -/
def IsNew (counter : Nat) (name : String) : Prop :=
  ∃ number, counter ≤ number ∧ name = letName number

theorem letName_injective : Function.Injective letName :=
  (append_left_injective "_LET_").comp toString_injective

theorem IsNew.mono (h : counter ≤ counter') (hnew : IsNew counter' name) : IsNew counter name := by
  obtain ⟨number, hle, rfl⟩ := hnew
  exact ⟨number, h.trans hle, rfl⟩

theorem not_isNew_letName {number : Nat} (h : number < counter) :
    ¬ IsNew counter (letName number) := by
  rintro ⟨number', hle, heq⟩
  rw [letName_injective heq] at h
  omega

/-- The lets of a replacer are new before it runs, and not any more afterwards. -/
theorem Numbered.isLet (h : Numbered first replacer) (hlet : IsLet replacer.map.entries name) :
    IsNew first name ∧ ¬ IsNew replacer.counter name := by
  obtain ⟨entry, hmem, rfl⟩ := hlet
  have hname : entry.2.name ∈ replacer.map.entries.map (·.2.name) := List.mem_map_of_mem hmem
  rw [h.names, List.mem_map] at hname
  obtain ⟨number, hnumber, heq⟩ := hname
  rw [List.mem_range'_1] at hnumber
  rw [← heq]
  refine ⟨⟨number, hnumber.1, rfl⟩, not_isNew_letName ?_⟩
  rw [h.counter]
  exact hnumber.2

theorem Numbered.nodup (h : Numbered first replacer) :
    (replacer.map.entries.map (·.2.name)).Nodup := by
  rw [h.names]
  exact List.Nodup.map letName_injective List.nodup_range'

/-- The lets around the quantifier, also if there are none. -/
theorem foldNode_forAll {order : IterOrder} {triggers : List (List Expr)} {expr' : Expr}
    {pos : Position} {fold : Folder Nat}
    (h : foldNode order (.forAll vars triggers body pos) [fold] counter = some (expr', counter')) :
    ∃ body' middle body'' replacer, fold counter = some (body', middle) ∧
      Replacer.fold vars body' (Replacer.new middle) = some (body'', replacer) ∧
      counter' = replacer.counter ∧
      (Numbered middle replacer → expr' = wrapLets (order.iter middle replacer.map.entries)
        (.forAll vars triggers body'' pos) pos) := by
  simp only [foldNode, Option.bind_eq_bind, Option.bind_eq_some_iff] at h
  obtain ⟨⟨body', middle⟩, hbody, ⟨body'', replacer⟩, hreplace, heq⟩ := h
  refine ⟨body', middle, body'', replacer, hbody, hreplace, ?_⟩
  split at heq
  · cases heq
    exact ⟨rfl, fun _ => rfl⟩
  · next hle =>
      cases heq
      refine ⟨rfl, fun hnumbered => ?_⟩
      have hnil : replacer.map.entries = [] := by
        have hcounter := hnumbered.counter
        change ¬ middle < replacer.counter at hle
        exact List.length_eq_zero_iff.mp (by omega)
      have hiter : order.iter middle replacer.map.entries = [] := by
        rw [hnil]
        exact List.perm_nil.mp (order.iter_perm middle [])
      rw [hiter]
      rfl

/-- The facts about the body of a quantifier that has been replaced. -/
structure ReplacedBody (vars : List LocalVar) (middle : Nat) (replacer : Replacer)
    (body' body'' : Expr) : Prop where
  numbered : Numbered middle replacer
  keys : ∀ entry ∈ replacer.map.entries, entry.1 ∈ pulledNodes vars body'
  abstracts : Abstracts vars replacer.map.entries body' body''
  names : ∀ name ∈ body'.names, ¬ IsNew middle name

/-- What a new replacer does. -/
theorem replacerFold_new {middle : Nat} {body' body'' : Expr}
    (h : Replacer.fold vars body' (Replacer.new middle) = some (body'', replacer)) :
    (Numbered middle replacer ∧ ∀ entry ∈ replacer.map.entries, entry.1 ∈ pulledNodes vars body') ∧
      Abstracts vars replacer.map.entries body' body'' := by
  have hstart : Numbered middle (Replacer.new middle) ∧
      ∀ entry ∈ (Replacer.new middle).map.entries, entry.1 ∈ pulledNodes vars body' :=
    ⟨⟨rfl, rfl⟩, fun _ => (nomatch ·)⟩
  obtain ⟨hreplacer, _, habs⟩ := replacerFold_spec body' (Replacer.new middle) body'' replacer
    (List.Subset.refl _) hstart h
  exact ⟨hreplacer, habs⟩

theorem replacedBody {middle : Nat} {body' body'' : Expr}
    (h : Replacer.fold vars body' (Replacer.new middle) = some (body'', replacer))
    (hnames : ∀ name ∈ body'.names, ¬ IsNew middle name) :
    ReplacedBody vars middle replacer body' body'' := by
  obtain ⟨⟨hnumbered, hkeys⟩, habs⟩ := replacerFold_new h
  exact ⟨hnumbered, hkeys, habs, hnames⟩

namespace ReplacedBody

variable {vars : List LocalVar} {middle : Nat} {replacer : Replacer} {body' body'' : Expr}
  {types : List Typ} {levels : List Level} {triggers : List (List Expr)} {pos : Position}

theorem isLet_of_perm {entries entries' : List (Expr × LocalVar)} (hperm : entries.Perm entries')
    (h : IsLet entries name) :
    IsLet entries' name := by
  obtain ⟨entry, hmem, hname⟩ := h
  exact ⟨entry, hperm.mem_iff.mp hmem, hname⟩

variable (h : ReplacedBody vars middle replacer body' body'')
  (hmovable : isMovable (some types) true body' (Level.ofVars vars :: levels) = true)
  {entries : List (Expr × LocalVar)} (hperm : entries.Perm replacer.map.entries)

include h hmovable hperm in
/-- The pulled out expressions may stand outside of the quantifier. -/
theorem movesOut (hmem : entry ∈ entries) :
    MovesOut (some types) true (Level.ofVars vars) levels body' entry.1 :=
  movesOut_of_mem_pulledNodes body' (Level.ofVars vars) hmovable entry.1
    (h.keys entry (hperm.mem_iff.mp hmem))

include h hperm in
theorem isNew_of_isLet (hlet : IsLet entries name) : IsNew middle name :=
  (h.numbered.isLet (isLet_of_perm hperm hlet)).1

include h hmovable hperm in
theorem not_isLet_of_mem_names (hmem : entry ∈ entries) (hname : name ∈ entry.1.names) :
    ¬ IsNew middle name :=
  h.names name ((h.movesOut hmovable hperm hmem).names hname)

include h hmovable hperm in
/-- The values inside of the quantifier and of the lets around it. -/
theorem letEnv (htypes : Expr.Distinct types) (hvars : ∀ var ∈ vars, ¬ IsNew middle var.name)
    {M : TotalModel} {state : M.State} {env env' : M.Env}
    (hother : ∀ name, ¬ IsLet entries name → env' name = env name)
    (hlets : ∀ entry ∈ entries, env' entry.2.name = M.eval entry.1 state env)
    {values : List M.V} (hlength : vars.length = values.length) :
    LetEnv replacer.map.entries types state (Level.ofVars vars) env
      (env.bind vars values) (env'.bind vars values) := by
  refine ⟨fun name hname => TotalModel.Env.bind_of_not_mem hname, ?_, ?_⟩
  · intro name hname
    refine TotalModel.Env.bind_congr hlength fun _ => hother name ?_
    intro hlet
    exact hname (isLet_of_perm hperm hlet)
  · intro node var hnode hlinked
    have hnew := (h.numbered.isLet hlinked.isLet).1
    rw [TotalModel.Env.bind_of_not_mem]
    · obtain ⟨key, hmem, hkey⟩ := hlinked
      have hentry := hperm.mem_iff.mpr hmem
      rw [hlets (key, var) hentry]
      rcases hkey with rfl | hbeq
      · rfl
      · have hout := h.movesOut hmovable hperm hentry
        have hmeaning := TotalModel.meaning_of_beq (M := M) htypes key node hbeq
          (isAmong_some.mp hout.among) (isAmong_some.mp hnode)
        rw [TotalModel.eval, TotalModel.eval, hmeaning]
    · intro hmem
      obtain ⟨bound, hbound, hname⟩ := List.mem_map.mp hmem
      exact hvars bound hbound (hname ▸ hnew)

include h hmovable hperm in
/-- The lets and the quantifier with the replaced body mean what the quantifier means. -/
theorem meaning_eq (htypes : Expr.Distinct types) (hvars : ∀ var ∈ vars, ¬ IsNew middle var.name)
    (M : TotalModel) :
    M.meaning (wrapLets entries (.forAll vars triggers body'' pos) pos) =
      M.meaning (.forAll vars triggers body' pos) := by
  have hloc : (M.meaning (wrapLets entries (.forAll vars triggers body'' pos) pos)).loc =
      (M.meaning (.forAll vars triggers body' pos)).loc := by
    rcases wrapLets_cases entries (.forAll vars triggers body'' pos) pos with
      heq | ⟨var, value, body, heq⟩
    · rw [heq, TotalModel.meaning_eq, TotalModel.meaning_eq]
      rfl
    · rw [heq, TotalModel.meaning_eq, TotalModel.meaning_eq]
      rfl
  refine congrArg₂ TotalModel.Meaning.mk (funext₂ fun state env => ?_) hloc
  change M.eval (wrapLets entries (.forAll vars triggers body'' pos) pos) state env =
    M.eval (.forAll vars triggers body' pos) state env
  have hnodup : (entries.map (·.2.name)).Nodup := ((hperm.map _).nodup_iff).mpr h.numbered.nodup
  have hfree : ∀ entry ∈ entries, ∀ name ∈ entry.1.free, ¬ IsLet entries name := by
    intro entry hmem name hname hlet
    exact h.not_isLet_of_mem_names hmovable hperm hmem (Expr.free_subset_names _ hname)
      (h.isNew_of_isLet hperm hlet)
  obtain ⟨env', heval, hother, hlets⟩ := eval_wrapLets state env hnodup hfree
    (.forAll vars triggers body'' pos) pos
  rw [heval, TotalModel.eval_forAll, TotalModel.eval_forAll]
  congr 1
  refine propext (forall₂_congr fun values hvalues => ?_)
  have hnames : ∀ name ∈ body'.names, ¬ IsLet replacer.map.entries name :=
    fun name hname hlet => h.names name hname (h.numbered.isLet hlet).1
  have hsame := h.abstracts.same body' body'' (Level.ofVars vars) _ _ hmovable hnames
    (h.letEnv hmovable hperm htypes hvars hother hlets (List.Forall₂.length_eq hvalues))
  rw [hsame.1]

include h hmovable hperm in
/-- What the lets and the quantifier keep. -/
theorem keeps (htypes : Expr.Distinct types) (hvars : ∀ var ∈ vars, ¬ IsNew middle var.name) :
    Keeps (fun name => IsNew middle name ∧ ¬ IsNew replacer.counter name)
      (fun name => ¬ IsNew middle name) (.forAll vars triggers body' pos)
      (wrapLets entries (.forAll vars triggers body'' pos) pos) where
  free name hname := by
    rcases mem_free_wrapLets hname with ⟨entry, hmem, hname⟩ | ⟨hname, hnot⟩
    · obtain ⟨hfree, hcrossed⟩ := (h.movesOut hmovable hperm hmem).free name hname
      have hzip : (vars.map (·.name), body') ∈ (Expr.forAll vars triggers body' pos).binders.zip
          (Expr.forAll vars triggers body' pos).children := List.mem_singleton.mpr rfl
      exact Expr.mem_free_of_child hzip hfree hcrossed
    · have hparts : List.Forall₂ (fun child part => ∀ name ∈ part.free,
          name ∈ child.free ∨ IsLet replacer.map.entries name)
          (Expr.forAll vars triggers body' pos).children [body''] :=
        .cons (h.abstracts.mem_free body' body'') .nil
      have hor := Expr.mem_free_rebuild _ hparts hname
      refine hor.resolve_right fun hlet => hnot ?_
      exact isLet_of_perm hperm.symm hlet
  names name hname := by
    have hlet : ∀ {name}, IsLet replacer.map.entries name →
        name ∈ (Expr.forAll vars triggers body' pos).names ∨
          IsNew middle name ∧ ¬ IsNew replacer.counter name :=
      fun hlet => .inr (h.numbered.isLet hlet)
    have hchild : body'.names ⊆ (Expr.forAll vars triggers body' pos).names :=
      Expr.names_child (List.mem_singleton.mpr rfl)
    rcases mem_names_wrapLets hname with ⟨entry, hmem, hname⟩ | hisLet | hname
    · exact .inl (hchild ((h.movesOut hmovable hperm hmem).names hname))
    · exact hlet (isLet_of_perm hperm hisLet)
    · have hparts : List.Forall₂ (fun child part => ∀ name ∈ part.names,
          name ∈ child.names ∨ IsLet replacer.map.entries name)
          (Expr.forAll vars triggers body' pos).children [body''] :=
        .cons (h.abstracts.mem_names body' body'') .nil
      have hor := Expr.mem_names_rebuild _ hparts hname
      exact hor.elim .inl hlet
  types typ htyp := by
    rcases mem_types_wrapLets htyp with ⟨entry, hmem, htyp⟩ | htyp
    · exact Expr.quantTypes_child (List.mem_singleton.mpr rfl)
        ((h.movesOut hmovable hperm hmem).types htyp)
    · have hparts : List.Forall₂ (fun child part => part.quantTypes ⊆ child.quantTypes)
          (Expr.forAll vars triggers body' pos).children [body''] :=
        .cons (h.abstracts.types_subset body' body'') .nil
      exact Expr.quantTypes_rebuild hparts htyp
  find var hvar := by
    have hnot : ¬ IsLet replacer.map.entries var.name := fun hlet => hvar (h.numbered.isLet hlet).1
    obtain ⟨hfrom, hto⟩ := h.abstracts.find_or hnot body' body''
    have hquant : ∀ body, (Expr.forAll vars triggers body pos).find (.ofLocal var) = true ↔
        body.find (.ofLocal var) = true := by
      intro body
      rw [Expr.find_iff]
      constructor
      · rintro (hself | ⟨child, hchild, hfind⟩)
        · exact absurd hself Bool.false_ne_true
        · rw [List.mem_singleton.mp hchild] at hfind
          exact hfind
      · intro hfind
        exact .inr ⟨body, List.mem_singleton.mpr rfl, hfind⟩
    rw [Bool.eq_iff_iff, find_wrapLets, hquant, hquant]
    constructor
    · rintro (hfind | ⟨entry, hmem, hfind⟩)
      · exact hfrom hfind
      · exact (h.movesOut hmovable hperm hmem).find _ hfind
    · intro hfind
      apply (hto hfind).imp_right
      rintro ⟨entry, hmem, hentry⟩
      exact ⟨entry, hperm.mem_iff.mpr hmem, hentry⟩
  place := by
    rcases wrapLets_cases entries (.forAll vars triggers body'' pos) pos with
      heq | ⟨var, value, body, heq⟩ <;> rw [heq] <;> rfl
  isLocal := by
    rcases wrapLets_cases entries (.forAll vars triggers body'' pos) pos with
      heq | ⟨var, value, body, heq⟩ <;> rw [heq] <;> rfl
  location := by
    rcases wrapLets_cases entries (.forAll vars triggers body'' pos) pos with
      heq | ⟨var, value, body, heq⟩ <;> rw [heq] <;> rfl
  meaning M := h.meaning_eq hmovable hperm htypes hvars M

include h hmovable hperm in
theorem isMovable_lets :
    isMovable (some types) true (wrapLets entries (.forAll vars triggers body'' pos) pos) levels =
      true := by
  refine isMovable_wrapLets (IsNew middle) ?_
  intro entry hmem
  refine ⟨h.isNew_of_isLet hperm ⟨entry, hmem, rfl⟩, (h.movesOut hmovable hperm hmem).movable, ?_⟩
  intro name hname
  exact h.not_isLet_of_mem_names hmovable hperm hmem hname

end ReplacedBody

/-- The names that a node binds are among its own. -/
theorem bound_subset_names {child : Expr} {bound : List String}
    (h : (bound, child) ∈ node.binders.zip node.children) : bound ⊆ node.names := by
  intro name hname
  cases hbinder : node.isBinder with
  | false =>
    have hnil : bound = [] := by
      have hmem := (List.of_mem_zip h).1
      rw [Expr.binders_eq_map hbinder, List.mem_map] at hmem
      obtain ⟨_, _, heq⟩ := hmem
      exact heq.symm
    rw [hnil] at hname
    cases hname
  | true =>
    refine Expr.mem_names_iff.mpr (.inl ?_)
    cases node with
    | letExpr =>
      rcases List.mem_cons.mp h with heq | hmem
      · cases heq
        cases hname
      · cases List.mem_singleton.mp hmem
        exact hname
    | forAll | exist =>
      cases List.mem_singleton.mp h
      exact hname
    | _ => cases hbinder

/-- The expression may be moved out of some quantifiers, if there are any. -/
def Fixable (types : Option (List Typ)) (isVar : String → Prop) (expr : Expr) : Prop :=
  ∃ levels, Within isVar levels ∧ isMovable types false expr levels = true

theorem within_ofVars_of_names {isVar : String → Prop} (hnode : treatment node = .quantifier vars)
    (hnames : ∀ name ∈ node.names, isVar name) {levels : List Level} (h : Within isVar levels) :
    Within isVar (Level.ofVars vars :: levels) := by
  have hvars : ∀ name ∈ vars.map (·.name), isVar name := by
    cases node with
    | forAll =>
      cases hnode
      exact fun name hname => hnames name (Expr.mem_names_iff.mpr (.inl hname))
    | _ => cases hnode
  exact within_cons (fun var hvar => hvars _ (List.mem_map_of_mem hvar)) hvars h

theorem Fixable.child {types : Option (List Typ)} {isVar : String → Prop} {child : Expr}
    (h : Fixable types isVar node) (hnames : ∀ name ∈ node.names, isVar name)
    (hwand : treatment node ≠ .wand) (hchild : child ∈ node.children) :
    Fixable types isVar child := by
  obtain ⟨levels, hlevels, hmovable⟩ := h
  rw [isMovable_eq] at hmovable
  induction levels with
  | nil =>
    unfold isMovableNode at hmovable
    split at hmovable
    · next hnode => exact absurd hnode hwand
    · next vars hnode =>
        rw [Bool.false_or, all_map_iff] at hmovable
        exact ⟨_, within_ofVars_of_names hnode hnames within_nil, hmovable child hchild⟩
    · rw [Bool.false_or, all_map_iff] at hmovable
      exact ⟨[], within_nil, hmovable child hchild⟩
  | cons level levels ih =>
    have hlevel := hlevels level List.mem_cons_self
    have hrest : Within isVar levels :=
      fun other hother => hlevels other (List.mem_cons_of_mem _ hother)
    unfold isMovableNode at hmovable
    split at hmovable
    · rw [Bool.and_eq_true] at hmovable
      exact ih hrest hmovable.2
    · split at hmovable
      · rw [Bool.false_or, all_map_iff] at hmovable
        exact ⟨[], within_nil, hmovable child hchild⟩
      · next vars hnode =>
          rw [Bool.false_or, all_map_iff] at hmovable
          exact ⟨_, within_ofVars_of_names hnode hnames hlevels, hmovable child hchild⟩
      · next hnode => exact absurd hnode hwand
      · rw [Bool.and_eq_true, all_map_iff] at hmovable
        exact ⟨_, hlevels, hmovable.2 child hchild⟩
      · rw [List.zip_map_right, List.all_eq_true, List.forall_mem_map] at hmovable
        obtain ⟨bound, hbound⟩ := Expr.exists_mem_binders_zip hchild
        refine ⟨level.cross bound :: levels, within_cons hlevel.1 ?_ hrest, hmovable _ hbound⟩
        intro name hname
        rcases List.mem_append.mp hname with hname | hname
        · exact hnames name (bound_subset_names hbound hname)
        · exact hlevel.2 name hname

theorem isMovable_forAll {types : Option (List Typ)} {triggers : List (List Expr)} {pos : Position}
    {levels : List Level} (h : isMovable types false
    (.forAll vars triggers body pos) levels = true) :
    isMovable types false body (Level.ofVars vars :: levels) = true := by
  rw [isMovable_eq] at h
  cases levels with
  | nil => exact all_map_iff.mp h body (List.mem_singleton.mpr rfl)
  | cons level levels => exact all_map_iff.mp h body (List.mem_singleton.mpr rfl)

/-- What the second pass does to an expression that is numbered from `first` on. -/
structure Fixes (types : List Typ) (first counter' : Nat) (expr expr' : Expr) : Prop where
  keeps : Keeps (fun name => IsNew first name ∧ ¬ IsNew counter' name)
    (fun name => ¬ IsNew first name) expr expr'
  moves : Moves (some types) false true (fun name => ¬ IsNew first name) expr expr'

theorem Fixes.mono {expr' : Expr} (h : Fixes types first counter expr expr')
    (hle : counter ≤ counter') :
    Fixes types first counter' expr expr' :=
  ⟨h.keeps.mono (fun _ hnew => ⟨hnew.1, fun hnew' => hnew.2 (hnew'.mono hle)⟩) fun _ => id, h.moves⟩

/-- The nodes that the optimizer folds by default. -/
theorem fixes_rebuild {parts : List Expr} (hnames : ∀ name ∈ node.names, ¬ IsNew first name)
    (hwand : treatment node ≠ .wand)
    (h : List.Forall₂ (Fixes types first counter') node.children parts) :
    Fixes types first counter' node (node.rebuild parts) := by
  have hkeeps := h.imp fun _ _ hpart => hpart.keeps
  refine ⟨Keeps.rebuild hkeeps, moves_rebuild (fun _ => rfl) hkeeps ?_ (absurd · hwand)⟩
  rw [← Expr.zip_map_snd_binders node, List.forall₂_map_left_iff] at h
  refine forall₂_imp_mem h ?_
  rintro ⟨bound, child⟩ hmem part _ hpart
  refine hpart.moves.mono ?_
  rintro name (hname | hname)
  · exact hnames name (bound_subset_names hmem hname)
  · exact hname

/-- The second pass keeps an expression that may be moved. -/
theorem replaceExprOld_spec {order : IterOrder} (htypes : Expr.Distinct types) (expr : Expr) :
    ∀ counter expr' counter', first ≤ counter → (∀ name ∈ expr.names, ¬ IsNew first name) →
      Fixable (some types) (fun name => ¬ IsNew first name) expr →
      replaceExprOld order expr counter = some (expr', counter') →
      first ≤ counter' ∧ counter ≤ counter' ∧ Fixes types first counter' expr expr' := by
  induction expr using Expr.children_induction with
  | h expr ih _ =>
  intro counter expr' counter' hfirst hnames hfixable h
  rw [replaceExprOld_eq] at h
  have hdefault : treatment expr ≠ .wand →
      defaultFold expr (expr.children.map (replaceExprOld order)) counter = some (expr', counter') →
      first ≤ counter' ∧ counter ≤ counter' ∧ Fixes types first counter' expr expr' := by
    intro hwand h
    obtain ⟨parts, hfold, rfl⟩ := defaultFold_eq_some h
    obtain ⟨hlast, hle, hparts⟩ := foldAll_spec (P := fun counter => first ≤ counter)
      (L := fun counter counter' => counter ≤ counter') (Q := Fixes types first)
      (fun _ => Nat.le_refl _) (fun _ _ _ => Nat.le_trans)
      (fun _ _ _ _ hle hpart => hpart.mono hle)
      (fun child hchild counter part counter' hfirst hfold => ih child hchild counter part
        counter' hfirst (fun name hname => hnames name (Expr.names_child hchild hname))
        (hfixable.child hnames hwand hchild) hfold)
      hfirst hfold
    exact ⟨hlast, hle, fixes_rebuild hnames hwand hparts⟩
  cases expr with
  | magicWand =>
    cases h
    refine ⟨hfirst, Nat.le_refl _, Keeps.refl _, ?_⟩
    intro levels _ hmovable
    rw [isMovable_eq] at hmovable ⊢
    cases levels with
    | nil => rfl
    | cons => exact hmovable
  | forAll vars triggers body pos =>
    obtain ⟨body', middle, body'', replacer, hbody, hreplace, rfl, hwrap⟩ := foldNode_forAll h
    have hmem : body ∈ (Expr.forAll vars triggers body pos).children := List.mem_singleton.mpr rfl
    obtain ⟨hmiddle, hle, hfixes⟩ := ih body hmem counter body' middle hfirst
      (fun name hname => hnames name (Expr.names_child hmem hname))
      (hfixable.child hnames (fun hwand => (nomatch hwand)) hmem) hbody
    have hold : ∀ name, ¬ IsNew first name → ¬ IsNew middle name :=
      fun _ hnot hnew => hnot (hnew.mono hmiddle)
    have hreplaced : ReplacedBody vars middle replacer body' body'' := by
      refine replacedBody hreplace fun name hname => ?_
      rcases hfixes.keeps.names name hname with hname | hnew
      · exact hold name (hnames name (Expr.names_child hmem hname))
      · exact hnew.2
    have hperm := order.iter_perm middle replacer.map.entries
    have hcounter : middle ≤ replacer.counter := by
      rw [hreplaced.numbered.counter]
      exact Nat.le_add_right _ _
    have hmoves : ∀ levels, Within (fun name => ¬ IsNew first name) levels →
        isMovable (some types) false (.forAll vars triggers body pos) levels = true →
        isMovable (some types) true body' (Level.ofVars vars :: levels) = true := by
      intro levels hlevels hmovable
      exact hfixes.moves _ (within_ofVars_of_names rfl hnames hlevels) (isMovable_forAll hmovable)
    rw [hwrap hreplaced.numbered]
    refine ⟨hmiddle.trans hcounter, hle.trans hcounter, ?_, ?_⟩
    · obtain ⟨levels, hlevels, hmovable⟩ := hfixable
      have hparts : List.Forall₂ (Keeps (fun name => IsNew first name ∧ ¬ IsNew middle name)
          fun name => ¬ IsNew first name) (Expr.forAll vars triggers body pos).children
          [body'] := .cons hfixes.keeps .nil
      have hquantifier : Keeps (fun name => IsNew first name ∧ ¬ IsNew middle name)
          (fun name => ¬ IsNew first name) (.forAll vars triggers body pos)
          (.forAll vars triggers body' pos) :=
        Keeps.rebuild hparts
      have hlets : Keeps _ _ (.forAll vars triggers body' pos) _ := hreplaced.keeps
        (hmoves levels hlevels hmovable) hperm htypes
        (fun var hvar => hold _ (hnames _ (Expr.mem_names_iff.mpr
          (.inl (List.mem_map_of_mem hvar)))))
      refine (hquantifier.trans (hlets.mono (fun _ => id) hold)).mono ?_ fun _ => id
      rintro name (⟨hnew, hnot⟩ | ⟨hnew, hnot⟩)
      · exact ⟨hnew, fun hnew' => hnot (hnew'.mono hcounter)⟩
      · exact ⟨hnew.mono hmiddle, hnot⟩
    · intro levels hlevels hmovable
      exact hreplaced.isMovable_lets (hmoves levels hlevels hmovable) hperm
  | _ => exact hdefault (fun hwand => (nomatch hwand)) h

end Fixed

end Prusti.Optimizations.QuantifierFixer

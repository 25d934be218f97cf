/-
The rewriting of modules of external specifications: every function of the module becomes
a call to the function that it specifies.  One path is extended on the way through the
tree of modules.
-/
import Prusti.Lib.Outcome
import Prusti.Specs.Tokens

namespace Prusti.Specs

open Prusti.Lib

variable {path' enclosing : List String} {ident : String} {itemFn : ItemFn}
  {items items' : List Item} {item' item : Item} {count' : Nat}

/-- A function with its tokens in the order in which they stand. -/
structure ItemFn where
  attrs : List TokenStream
  visibility : TokenStream
  qualifiers : TokenStream
  ident : String
  generics : TokenStream
  inputs : TokenStream
  output : TokenStream
  /-- What stands between the braces. -/
  block : TokenStream

/-- An item; a module has no content when it is only declared. -/
inductive Item where
  | fn (itemFn : ItemFn)
  | mod (attrs : List TokenStream) (ident : String) (content : Option (List Item))
  | verbatim (tokens : TokenStream)
  | use (tokens : TokenStream)
  | other (tokens : TokenStream)

/-- An error and the item where it is reported. -/
structure RewriteError where
  item : Item
  message : String

/-- The tokens of a path, with `::` between its segments. -/
def pathTokens : List String → TokenStream
  | [] => []
  | [segment] => [.ident segment]
  | segment :: segments => .ident segment :: .punct ':' :: .punct ':' :: pathTokens segments

/-- `path :: ident (args); unimplemented!()` -/
def callBlock (path : List String) (ident : String) (args : TokenStream) : TokenStream :=
  pathTokens path ++ [.punct ':', .punct ':', .ident ident, .group .parenthesis args,
    .punct ';', .ident "unimplemented", .punct '!', .group .parenthesis []]

/-- The name of an identifier. -/
def identName? : TokenTree → Option String
  | .ident name => some name
  | _ => none

theorem idents_pathTokens (path : List String) : (pathTokens path).filterMap identName? = path := by
  fun_induction pathTokens path with
  | case1 => rfl
  | case2 segment => rfl
  | case3 segment segments _ ih =>
    change segment :: (pathTokens segments).filterMap identName? = segment :: segments
    rw [ih]

theorem idents_callBlock (path : List String) (ident : String) (args : TokenStream) :
    (callBlock path ident args).filterMap identName? = path ++ [ident, "unimplemented"] := by
  rw [callBlock, List.filterMap_append, idents_pathTokens]
  rfl

/-- Calls of one function by different paths are different. -/
theorem callBlock_inj {path : List String} {args : TokenStream} :
    callBlock path ident args = callBlock path' ident args ↔ path = path' := by
  refine ⟨fun h => ?_, fun h => h ▸ rfl⟩
  have hidents := congrArg (List.filterMap identName?) h
  rw [idents_callBlock, idents_callBlock] at hidents
  exact List.append_cancel_right hidents

def externSpecAttr : TokenStream :=
  [.punct '#', .group .bracket [.ident "prusti", .punct ':', .punct ':', .ident "extern_spec"]]

def trustedAttr : TokenStream := [.punct '#', .group .bracket [.ident "trusted"]]

def rewriteFn (itemFn : ItemFn) (path : List String) : ItemFn :=
  { itemFn with
    block := callBlock path itemFn.ident itemFn.inputs
    attrs := itemFn.attrs ++ [externSpecAttr, trustedAttr] }

def ItemFn.toTokens (itemFn : ItemFn) : TokenStream :=
  itemFn.attrs.flatten ++ itemFn.visibility ++ itemFn.qualifiers ++
    [.ident "fn", .ident itemFn.ident] ++ itemFn.generics ++
    [.group .parenthesis itemFn.inputs] ++ itemFn.output ++ [.group .brace itemFn.block]

theorem ItemFn.block_eq_of_toTokens_eq {itemFn' : ItemFn} (h : itemFn.toTokens = itemFn'.toTokens) :
    itemFn.block = itemFn'.block := by
  have hlast := congrArg List.getLast? h
  rw [ItemFn.toTokens, ItemFn.toTokens, List.getLast?_concat, List.getLast?_concat] at hlast
  exact (TokenTree.group.inj (Option.some.inj hlast)).2

namespace Item

mutual

def toTokens : Item → TokenStream
  | fn itemFn => itemFn.toTokens
  | mod attrs ident none => attrs.flatten ++ [.ident "mod", .ident ident, .punct ';']
  | mod attrs ident (some items) =>
    attrs.flatten ++ [.ident "mod", .ident ident, .group .brace (allTokens items)]
  | verbatim tokens => tokens
  | use tokens => tokens
  | other tokens => tokens

def allTokens : List Item → TokenStream
  | [] => []
  | item :: items => toTokens item ++ allTokens items

end

end Item

/-- Function stubs get an empty body for the `;` after their signature. -/
def stubBodies (tokens : TokenStream) : TokenStream :=
  tokens.map fun token => if token.isPunct ';' then .group .brace [] else token

section Rewrite

-- The parser of items, and the ids that are generated.
variable (parse2 : TokenStream → Option Item) (uuid : Nat → String)

mutual

/-- Rewrite an item.  The path and the number of generated ids are threaded through. -/
def rewriteItem (path : List String) (count : Nat) :
    Item → Except RewriteError (Item × List String × Nat)
  | .fn itemFn => .ok (.fn (rewriteFn itemFn path), path, count)
  | .mod attrs ident content => rewriteMod path count attrs ident content
  | .verbatim tokens =>
    match parse2 (stubBodies tokens) with
    | none => .error ⟨.verbatim tokens, "invalid function signature"⟩
    | some (.fn itemFn) => .ok (.verbatim (rewriteFn itemFn path).toTokens, path, count)
    | some item => .ok (.verbatim item.toTokens, path, count)
  | .use tokens => .ok (.use tokens, path, count)
  | .other tokens => .error ⟨.other tokens, "unexpected item"⟩

def rewriteMod (path : List String) (count : Nat) (attrs : List TokenStream) (ident : String) :
    Option (List Item) → Except RewriteError (Item × List String × Nat)
  | none => .ok (.mod attrs ident none, path, count)
  | some items => do
    let (items, after) ← rewriteItems (path ++ [ident]) (count + 1) items
    .ok (.mod attrs (ident ++ uuid count) (some items), after)

def rewriteItems (path : List String) (count : Nat) :
    List Item → Except RewriteError (List Item × List String × Nat)
  | [] => .ok ([], path, count)
  | item :: items => do
    let (item, path, count) ← rewriteItem path count item
    let (items, after) ← rewriteItems path count items
    .ok (item :: items, after)

end

/-- A specification function calls the path of the modules that enclose it. -/
def CallsPath (enclosing : List String) (itemFn rewritten : ItemFn) : Prop :=
  rewritten.ident = itemFn.ident ∧ rewritten.block = callBlock enclosing itemFn.ident itemFn.inputs

mutual

/-- Every function and every function stub of an item was rewritten to a function that calls
the path of the modules that enclose it. -/
def CallsEnclosing (enclosing : List String) : Item → Item → Prop
  | .fn itemFn, rewritten => ∃ fn', rewritten = .fn fn' ∧ CallsPath enclosing itemFn fn'
  | .mod _ ident content, rewritten =>
    ∃ attrs' ident' content', rewritten = .mod attrs' ident' content' ∧
      ContentCallsEnclosing (enclosing ++ [ident]) content content'
  | .verbatim tokens, rewritten =>
    ∀ itemFn, parse2 (stubBodies tokens) = some (.fn itemFn) →
      ∃ fn' : ItemFn, rewritten = .verbatim fn'.toTokens ∧ CallsPath enclosing itemFn fn'
  | .use _, _ => True
  | .other _, _ => True

def ContentCallsEnclosing (enclosing : List String) : Option (List Item) → Option (List Item) → Prop
  | none, _ => True
  | some items, content' => ∃ items', content' = some items' ∧
      ItemsCallEnclosing enclosing items items'

def ItemsCallEnclosing (enclosing : List String) : List Item → List Item → Prop
  | [], items' => items' = []
  | item :: items, rewritten => ∃ item' items', rewritten = item' :: items' ∧
      CallsEnclosing enclosing item item' ∧ ItemsCallEnclosing enclosing items items'

end

mutual

/-- Does an item contain a function or a function stub? -/
def specifies : Item → Prop
  | .fn _ => True
  | .mod _ _ content => contentSpecifies content
  | .verbatim tokens => ∃ itemFn, parse2 (stubBodies tokens) = some (.fn itemFn)
  | .use _ => False
  | .other _ => False

def contentSpecifies : Option (List Item) → Prop
  | none => False
  | some items => itemsSpecify items

def itemsSpecify : List Item → Prop
  | [] => False
  | item :: items => specifies item ∨ itemsSpecify items

end

/-- The item is a module with content. -/
def Item.HasContent : Item → Prop
  | .mod _ _ (some _) => True
  | _ => False

mutual

/-- In no module does a function or a function stub come after a nested module that has
content, neither directly nor in another module. -/
def ModulesLast : Item → Prop
  | .mod _ _ content => ContentModulesLast content
  | _ => True

def ContentModulesLast : Option (List Item) → Prop
  | none => True
  | some items => ItemsModulesLast items

def ItemsModulesLast : List Item → Prop
  | [] => True
  | item :: items =>
    ModulesLast item ∧ (item.HasContent → ¬ itemsSpecify parse2 items) ∧ ItemsModulesLast items

end

section Inversion

variable {parse2 uuid} {path : List String} {count : Nat}

theorem rewriteMod_some {attrs : List TokenStream}
    (h : rewriteMod parse2 uuid path count attrs ident (some items) = .ok (item', path', count')) :
    ∃ items', rewriteItems parse2 uuid (path ++ [ident]) (count + 1) items =
        .ok (items', path', count') ∧
      item' = .mod attrs (ident ++ uuid count) (some items') := by
  rw [rewriteMod] at h
  obtain ⟨⟨items', after⟩, hitems, h⟩ := exists_of_bind_eq_ok h
  cases h
  exact ⟨items', hitems, rfl⟩

theorem rewriteItems_cons
    (h : rewriteItems parse2 uuid path count (item :: items) = .ok (items', path', count')) :
    ∃ first between count'' rest,
      rewriteItem parse2 uuid path count item = .ok (first, between, count'') ∧
      rewriteItems parse2 uuid between count'' items = .ok (rest, path', count') ∧
      items' = first :: rest := by
  rw [rewriteItems] at h
  obtain ⟨⟨first, between, count''⟩, hfirst, h⟩ := exists_of_bind_eq_ok h
  obtain ⟨⟨rest, after⟩, hrest, h⟩ := exists_of_bind_eq_ok h
  cases h
  exact ⟨first, between, count'', rest, hfirst, hrest, rfl⟩

/-- A stub that holds a function becomes that function, and another one keeps its item. -/
theorem rewriteItem_verbatim {tokens : TokenStream}
    (h : rewriteItem parse2 uuid path count (.verbatim tokens) = .ok (item', path', count')) :
    path' = path ∧ ∀ itemFn, parse2 (stubBodies tokens) = some (.fn itemFn) →
      item' = .verbatim (rewriteFn itemFn path).toTokens := by
  rw [rewriteItem] at h
  split at h
  · cases h
  · next itemFn' hparse =>
      cases h
      refine ⟨rfl, fun itemFn hitemFn => ?_⟩
      rw [hparse] at hitemFn
      cases hitemFn
      rfl
  · next item hnot hparse =>
      cases h
      refine ⟨rfl, fun itemFn hitemFn => ?_⟩
      rw [hparse] at hitemFn
      cases hitemFn
      exact absurd rfl (hnot itemFn)

/-- A module with content leaves its name on the path, and other items leave the path
alone. -/
theorem rewriteItem_path_of_not_content (hitem : ¬ item.HasContent)
    (h : rewriteItem parse2 uuid path count item = .ok (item', path', count')) :
    path' = path := by
  cases item with
  | fn itemFn =>
    cases h
    rfl
  | mod attrs ident content =>
    cases content with
    | none =>
      cases h
      rfl
    | some items => exact absurd trivial hitem
  | verbatim tokens => exact (rewriteItem_verbatim h).1
  | use tokens =>
    cases h
    rfl
  | other tokens => cases h

mutual

theorem length_le_of_rewriteItem (item : Item) {path : List String} {count : Nat}
    {item' : Item} {path' : List String} {count' : Nat}
    (h : rewriteItem parse2 uuid path count item = .ok (item', path', count')) :
    path.length ≤ path'.length ∧ (item.HasContent → path.length < path'.length) := by
  cases item with
  | mod attrs ident content =>
    cases content with
    | none =>
      cases h
      exact ⟨Nat.le_refl _, False.elim⟩
    | some items =>
      obtain ⟨items', hitems, -⟩ := rewriteMod_some h
      have hle := length_le_of_rewriteItems items hitems
      rw [List.length_append, List.length_singleton] at hle
      exact ⟨by omega, fun _ => by omega⟩
  | _ =>
    rw [rewriteItem_path_of_not_content id h]
    exact ⟨Nat.le_refl _, False.elim⟩

theorem length_le_of_rewriteItems (items : List Item) {path : List String} {count : Nat}
    {items' : List Item} {path' : List String} {count' : Nat}
    (h : rewriteItems parse2 uuid path count items = .ok (items', path', count')) :
    path.length ≤ path'.length := by
  cases items with
  | nil =>
    cases h
    exact Nat.le_refl _
  | cons item items =>
    obtain ⟨first, between, count'', rest, hfirst, hrest, -⟩ := rewriteItems_cons h
    exact (length_le_of_rewriteItem item hfirst).1.trans (length_le_of_rewriteItems items hrest)

end

theorem callsPath_rewriteFn_iff :
    CallsPath enclosing itemFn (rewriteFn itemFn path) ↔ path = enclosing :=
  (and_iff_right rfl).trans callBlock_inj

theorem callsEnclosing_fn_iff :
    CallsEnclosing parse2 enclosing (.fn itemFn) (.fn (rewriteFn itemFn path)) ↔
      path = enclosing := by
  rw [CallsEnclosing, ← callsPath_rewriteFn_iff]
  constructor
  · rintro ⟨fn', heq, hcalls⟩
    cases heq
    exact hcalls
  · intro hcalls
    exact ⟨_, rfl, hcalls⟩

theorem callsEnclosing_verbatim_iff {tokens : TokenStream}
    (h : rewriteItem parse2 uuid path count (.verbatim tokens) = .ok (item', path', count')) :
    CallsEnclosing parse2 enclosing (.verbatim tokens) item' ↔
      (specifies parse2 (.verbatim tokens) → path = enclosing) := by
  obtain ⟨-, hitem'⟩ := rewriteItem_verbatim h
  rw [CallsEnclosing, specifies]
  constructor
  · rintro hcalls ⟨itemFn, hparse⟩
    obtain ⟨fn', heq, -, hblock⟩ := hcalls itemFn hparse
    rw [hitem' itemFn hparse] at heq
    have hblocks := ItemFn.block_eq_of_toTokens_eq (Item.verbatim.inj heq)
    exact callBlock_inj.mp (hblocks.trans hblock)
  · intro hpath itemFn hparse
    exact ⟨_, hitem' itemFn hparse, callsPath_rewriteFn_iff.mpr (hpath ⟨itemFn, hparse⟩)⟩

/-- A module calls what encloses it, when its items do. -/
theorem callsEnclosing_mod_iff {attrs attrs' : List TokenStream} {ident' : String} :
    CallsEnclosing parse2 enclosing (.mod attrs ident (some items))
        (.mod attrs' ident' (some items')) ↔
      ItemsCallEnclosing parse2 (enclosing ++ [ident]) items items' := by
  rw [CallsEnclosing]
  constructor
  · rintro ⟨_, _, _, heq, hcontent⟩
    cases heq
    rw [ContentCallsEnclosing] at hcontent
    obtain ⟨_, heq, hitems⟩ := hcontent
    cases heq
    exact hitems
  · intro hitems
    refine ⟨_, _, _, rfl, ?_⟩
    rw [ContentCallsEnclosing]
    exact ⟨_, rfl, hitems⟩

theorem itemsCallEnclosing_cons_iff :
    ItemsCallEnclosing parse2 enclosing (item :: items) (item' :: items') ↔
      CallsEnclosing parse2 enclosing item item' ∧
        ItemsCallEnclosing parse2 enclosing items items' := by
  rw [ItemsCallEnclosing]
  constructor
  · rintro ⟨_, _, heq, hitem, hitems⟩
    cases heq
    exact ⟨hitem, hitems⟩
  · rintro ⟨hitem, hitems⟩
    exact ⟨_, _, rfl, hitem, hitems⟩

mutual

/-- With a longer path no function calls the right one. -/
theorem callsEnclosing_iff_of_longer (item : Item) {enclosing path : List String} {count : Nat}
    {item' : Item} {path' : List String} {count' : Nat} (hlt : enclosing.length < path.length)
    (h : rewriteItem parse2 uuid path count item = .ok (item', path', count')) :
    CallsEnclosing parse2 enclosing item item' ↔ ¬ specifies parse2 item := by
  have hne : path ≠ enclosing := by
    rintro rfl
    exact Nat.lt_irrefl _ hlt
  cases item with
  | fn itemFn =>
    cases h
    rw [callsEnclosing_fn_iff, specifies]
    simp [hne]
  | mod attrs ident content =>
    cases content with
    | none =>
      cases h
      simp [CallsEnclosing, ContentCallsEnclosing, specifies, contentSpecifies]
    | some items =>
      obtain ⟨items', hitems, rfl⟩ := rewriteMod_some h
      rw [callsEnclosing_mod_iff, specifies, contentSpecifies]
      refine itemsCallEnclosing_iff_of_longer items ?_ hitems
      rw [List.length_append, List.length_append]
      exact Nat.add_lt_add_right hlt _
  | verbatim tokens =>
    rw [callsEnclosing_verbatim_iff h]
    exact imp_congr_right fun _ => iff_of_false hne id
  | use tokens => simp [CallsEnclosing, specifies]
  | other tokens => cases h

theorem itemsCallEnclosing_iff_of_longer (items : List Item) {enclosing path : List String}
    {count : Nat} {items' : List Item} {path' : List String} {count' : Nat}
    (hlt : enclosing.length < path.length)
    (h : rewriteItems parse2 uuid path count items = .ok (items', path', count')) :
    ItemsCallEnclosing parse2 enclosing items items' ↔ ¬ itemsSpecify parse2 items := by
  cases items with
  | nil =>
    cases h
    simp [ItemsCallEnclosing, itemsSpecify]
  | cons item items =>
    obtain ⟨first, between, count'', rest, hfirst, hrest, rfl⟩ := rewriteItems_cons h
    have hbetween := hlt.trans_le (length_le_of_rewriteItem item hfirst).1
    rw [itemsCallEnclosing_cons_iff, callsEnclosing_iff_of_longer item hlt hfirst,
      itemsCallEnclosing_iff_of_longer items hbetween hrest, itemsSpecify, not_or]

end

mutual

theorem modulesLast_of_not_specifies (item : Item) (h : ¬ specifies parse2 item) :
    ModulesLast parse2 item := by
  cases item with
  | mod attrs ident content =>
    cases content with
    | none => trivial
    | some items => exact itemsModulesLast_of_not_specify items h
  | _ => trivial

theorem itemsModulesLast_of_not_specify (items : List Item) (h : ¬ itemsSpecify parse2 items) :
    ItemsModulesLast parse2 items := by
  cases items with
  | nil => trivial
  | cons item items =>
    rw [itemsSpecify, not_or] at h
    exact ⟨modulesLast_of_not_specifies item h.1, fun _ => h.2,
      itemsModulesLast_of_not_specify items h.2⟩

end

mutual

theorem callsEnclosing_iff (item : Item) {enclosing : List String} {count : Nat}
    {item' : Item} {path' : List String} {count' : Nat}
    (h : rewriteItem parse2 uuid enclosing count item = .ok (item', path', count')) :
    CallsEnclosing parse2 enclosing item item' ↔ ModulesLast parse2 item := by
  cases item with
  | fn itemFn =>
    cases h
    rw [callsEnclosing_fn_iff, ModulesLast]
    · simp
    · simp
  | mod attrs ident content =>
    cases content with
    | none =>
      cases h
      simp [CallsEnclosing, ContentCallsEnclosing, ModulesLast, ContentModulesLast]
    | some items =>
      obtain ⟨items', hitems, rfl⟩ := rewriteMod_some h
      rw [callsEnclosing_mod_iff, ModulesLast, ContentModulesLast]
      exact itemsCallEnclosing_iff items hitems
  | verbatim tokens =>
    rw [callsEnclosing_verbatim_iff h, ModulesLast]
    · simp
    · simp
  | use tokens => simp [CallsEnclosing, ModulesLast]
  | other tokens => cases h

theorem itemsCallEnclosing_iff (items : List Item) {enclosing : List String} {count : Nat}
    {items' : List Item} {path' : List String} {count' : Nat}
    (h : rewriteItems parse2 uuid enclosing count items = .ok (items', path', count')) :
    ItemsCallEnclosing parse2 enclosing items items' ↔ ItemsModulesLast parse2 items := by
  cases items with
  | nil =>
    cases h
    simp [ItemsCallEnclosing, ItemsModulesLast]
  | cons item items =>
    obtain ⟨first, between, count'', rest, hfirst, hrest, rfl⟩ := rewriteItems_cons h
    rw [itemsCallEnclosing_cons_iff, callsEnclosing_iff item hfirst, ItemsModulesLast]
    refine and_congr_right' ?_
    by_cases hcontent : item.HasContent
    · -- the name of the module stays on the path
      have hlt := (length_le_of_rewriteItem item hfirst).2 hcontent
      rw [itemsCallEnclosing_iff_of_longer items hlt hrest]
      refine ⟨fun hnot => ⟨fun _ => hnot, itemsModulesLast_of_not_specify items hnot⟩, ?_⟩
      rintro ⟨hnot, -⟩
      exact hnot hcontent
    · rw [rewriteItem_path_of_not_content hcontent hfirst] at hrest
      rw [itemsCallEnclosing_iff items hrest]
      simp [hcontent]

end

/-- In a module that was rewritten, the functions call the functions that they specify if
and only if no module has a function after a nested module. -/
theorem rewriteMod_calls_enclosing_iff {attrs : List TokenStream} {ident : String}
    {content : Option (List Item)} {item' : Item} {path' : List String} {count' : Nat}
    (h : rewriteMod parse2 uuid path count attrs ident content = .ok (item', path', count')) :
    CallsEnclosing parse2 path (.mod attrs ident content) item' ↔
      ModulesLast parse2 (.mod attrs ident content) :=
  callsEnclosing_iff (.mod attrs ident content) h

end Inversion

end Rewrite

namespace Witness

/-- A function without attributes and qualifiers, or a stub that got a body. -/
def parseFn : TokenStream → Option Item
  | [.ident "fn", .ident name, .group .parenthesis inputs, .group .brace block] =>
    some (.fn ⟨[], [], [], name, [], inputs, [], block⟩)
  | _ => none

def stub (name : String) : Item :=
  .verbatim [.ident "fn", .ident name, .group .parenthesis [], .punct ';']

def mem : Item := .mod [] "mem" (some [stub "swap"])

def uuid (count : Nat) : String := toString count

theorem lastModule_calls_enclosing :
    ∃ item' path' count',
      rewriteMod parseFn uuid [] 0 [] "std" (some [stub "drop", mem]) = .ok (item', path', count') ∧
      (CallsEnclosing parseFn [] (.mod [] "std" (some [stub "drop", mem])) item' ↔
        ModulesLast parseFn (.mod [] "std" (some [stub "drop", mem]))) :=
  ⟨_, _, _, rfl, rewriteMod_calls_enclosing_iff rfl⟩

/-- The function after the nested module calls `std::mem::drop`. -/
theorem not_calls_enclosing :
    ¬ ∀ (parse2 : TokenStream → Option Item) (uuid : Nat → String) attrs ident content item'
      path' count', rewriteMod parse2 uuid [] 0 attrs ident content = .ok (item', path', count') →
      CallsEnclosing parse2 [] (.mod attrs ident content) item' := by
  intro h
  have hcalls := h parseFn uuid [] "std" (some [mem, stub "drop"]) _ _ _ rfl
  have hitems := callsEnclosing_mod_iff.mp hcalls
  have hdrop := (itemsCallEnclosing_cons_iff.mp (itemsCallEnclosing_cons_iff.mp hitems).2).1
  obtain ⟨fn', heq, -, hblock⟩ := hdrop ⟨[], [], [], "drop", [], [], [], []⟩ rfl
  have hblocks := ItemFn.block_eq_of_toTokens_eq (Item.verbatim.inj heq)
  have hpath := callBlock_inj.mp (hblocks.trans hblock)
  exact absurd hpath (by decide)

end Witness

end Prusti.Specs

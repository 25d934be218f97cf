/-
Hash maps as the lists of their entries.  Keys are compared with a boolean
equality that is symmetric and transitive but need not be structural, as for
hash maps whose keys have a hand-written equality.  A map is determined by
`get?`; the order of its entries stands for one possible iteration order.
-/
import Mathlib.Data.List.Perm.Basic
import Mathlib.Data.List.Pairwise

namespace Prusti.Lib

universe u v

variable {α : Type u} {β : Type v}

theorem list_beq_cons_iff [BEq α] (a b : α) (as bs : List α) :
    ((a :: as) == (b :: bs)) = true ↔ (a == b) = true ∧ (as == bs) = true := by
  simp

instance instPartialEquivBEqList [BEq α] [PartialEquivBEq α] : PartialEquivBEq (List α) where
  symm {left right} h := by
    induction left generalizing right with
    | nil =>
      cases right with
      | nil => rfl
      | cons => simp at h
    | cons head tail ih =>
      cases right with
      | nil => simp at h
      | cons head' tail' =>
        rw [list_beq_cons_iff] at h ⊢
        exact ⟨BEq.symm h.1, ih h.2⟩
  trans {left middle right} h h' := by
    induction left generalizing middle right with
    | nil =>
      cases middle with
      | nil => exact h'
      | cons => simp at h
    | cons head tail ih =>
      cases middle with
      | nil => simp at h
      | cons head' tail' =>
        cases right with
        | nil => simp at h'
        | cons head'' tail'' =>
          rw [list_beq_cons_iff] at h h' ⊢
          exact ⟨BEq.trans h.1 h'.1, ih h.2 h'.2⟩

/-- A hash map: its entries in some order, no key twice. -/
structure HashMap (α : Type u) (β : Type v) [BEq α] where
  entries : List (α × β)
  nodup : entries.Pairwise fun left right => (left.1 == right.1) = false

/-- A hash set is a hash map to the unit type. -/
abbrev HashSet (α : Type u) [BEq α] := HashMap α Unit

/-- The value of the first entry whose key equals `key`. -/
def lookup [BEq α] (entries : List (α × β)) (key : α) : Option β :=
  (entries.find? fun entry => entry.1 == key).map Prod.snd

theorem lookup_cons [BEq α] (entry : α × β) (entries : List (α × β)) (key : α) :
    lookup (entry :: entries) key =
      if entry.1 == key then some entry.2 else lookup entries key := by
  unfold lookup
  rw [List.find?_cons]
  cases entry.1 == key <;> rfl

theorem lookup_append [BEq α] (left right : List (α × β)) (key : α) :
    lookup (left ++ right) key = (lookup left key).or (lookup right key) := by
  induction left with
  | nil => rfl
  | cons entry left ih =>
    rw [List.cons_append, lookup_cons, lookup_cons, ih]
    cases entry.1 == key <;> rfl

theorem lookup_eq_none_iff [BEq α] (entries : List (α × β)) (key : α) :
    lookup entries key = none ↔ ∀ entry ∈ entries, (entry.1 == key) = false := by
  unfold lookup
  rw [Option.map_eq_none_iff, List.find?_eq_none]
  simp

theorem exists_mem_of_lookup_eq_some [BEq α] {entries : List (α × β)}
    {key : α} {value : β} (h : lookup entries key = some value) :
    ∃ entry ∈ entries, (entry.1 == key) = true ∧ entry.2 = value := by
  unfold lookup at h
  obtain ⟨entry, hfind, hvalue⟩ := Option.map_eq_some_iff.mp h
  refine ⟨entry, List.mem_of_find?_eq_some hfind, ?_, hvalue⟩
  simpa using List.find?_some hfind

/-- Filtering by a property that respects the equality of keys. -/
theorem lookup_filter [BEq α] (entries : List (α × β)) (keep : α → Bool)
    (hkeep : ∀ left right : α, (left == right) = true → keep left = keep right) (key : α) :
    lookup (entries.filter fun entry => keep entry.1) key =
      if keep key then lookup entries key else none := by
  induction entries with
  | nil => simp [lookup]
  | cons entry entries ih =>
    rw [lookup_cons]
    cases hentry : keep entry.1 with
    | false =>
      rw [List.filter_cons_of_neg (by simp [hentry]), ih]
      cases heq : entry.1 == key with
      | false => simp
      | true => simp [← hkeep _ _ heq, hentry]
    | true =>
      rw [List.filter_cons_of_pos (by simp [hentry]), lookup_cons, ih]
      cases heq : entry.1 == key with
      | false => simp
      | true => simp [← hkeep _ _ heq, hentry]

section Equiv

variable [BEq α] [PartialEquivBEq α]

theorem beq_congr_right {key key' : α} (h : (key == key') = true)
    (other : α) : (other == key) = (other == key') :=
  BEq.congr_right h

theorem lookup_congr (entries : List (α × β)) {key key' : α}
    (h : (key == key') = true) : lookup entries key = lookup entries key' := by
  unfold lookup
  congr 2
  funext entry
  exact beq_congr_right h entry.1

/-- Replacing the value at a key changes the look-up at that key only. -/
theorem lookup_replace (entries : List (α × β)) (key key' : α) (value : β) :
    lookup (entries.map fun entry =>
        if entry.1 == key then (entry.1, value) else entry) key' =
      if key == key' then (lookup entries key').map fun _ => value
      else lookup entries key' := by
  induction entries with
  | nil => simp [lookup]
  | cons entry entries ih =>
    rw [List.map_cons, lookup_cons, lookup_cons, ih]
    cases heq : entry.1 == key with
    | true =>
      rw [← BEq.congr_left heq]
      cases heq' : entry.1 == key' <;> simp [heq']
    | false =>
      cases heq' : entry.1 == key' with
      | false => simp [heq']
      | true =>
        have hne : (key == key') = false := by
          rw [← beq_congr_right heq' key, BEq.comm]
          exact heq
        simp [heq', hne]

/-- In a list without duplicate keys every entry is found at its own key. -/
theorem lookup_of_mem {entries : List (α × β)} (hnodup : entries.Pairwise fun left right =>
      (left.1 == right.1) = false)
    {entry : α × β} (hmem : entry ∈ entries) {key : α} (hkey : (entry.1 == key) = true) :
    lookup entries key = some entry.2 := by
  induction entries with
  | nil => simp at hmem
  | cons head tail ih =>
    rw [List.pairwise_cons] at hnodup
    rw [lookup_cons]
    rcases List.mem_cons.mp hmem with rfl | htail
    · rw [if_pos hkey]
    · have hne : (head.1 == key) = false := by
        rw [← beq_congr_right hkey head.1]
        exact hnodup.1 entry htail
      rw [if_neg (by simp [hne]), ih hnodup.2 htail]

/-- The order of the entries does not matter if no key stands twice. -/
theorem lookup_perm {entries entries' : List (α × β)}
    (hnodup : entries.Pairwise fun left right => (left.1 == right.1) = false)
    (hperm : entries'.Perm entries) (key : α) : lookup entries' key = lookup entries key := by
  have hnodup' : entries'.Pairwise fun left right => (left.1 == right.1) = false :=
    (hperm.pairwise_iff fun h => BEq.comm.trans h).mpr hnodup
  cases hlookup : lookup entries key with
  | none =>
    rw [lookup_eq_none_iff] at hlookup ⊢
    intro entry hentry
    exact hlookup entry (hperm.mem_iff.mp hentry)
  | some value =>
    obtain ⟨entry, hmem, hkey, rfl⟩ := exists_mem_of_lookup_eq_some hlookup
    exact lookup_of_mem hnodup' (hperm.mem_iff.mpr hmem) hkey

end Equiv

namespace HashMap

section Basic

variable [BEq α]

def empty : HashMap α β := ⟨[], List.Pairwise.nil⟩

def get? (map : HashMap α β) (key : α) : Option β := lookup map.entries key

def contains (map : HashMap α β) (key : α) : Bool := map.entries.any fun entry => entry.1 == key

def keys (map : HashMap α β) : List α := map.entries.map Prod.fst

/-- Keep the entries whose key satisfies `keep`. -/
def retain (map : HashMap α β) (keep : α → Bool) : HashMap α β :=
  ⟨map.entries.filter fun entry => keep entry.1, map.nodup.filter _⟩

def erase (map : HashMap α β) (key : α) : HashMap α β := map.retain fun other => !(other == key)

theorem contains_eq_isSome (map : HashMap α β) (key : α) :
    map.contains key = (map.get? key).isSome := by
  unfold contains get?
  cases hlookup : lookup map.entries key with
  | none =>
    rw [lookup_eq_none_iff] at hlookup
    simpa using hlookup
  | some value =>
    obtain ⟨entry, hmem, hkey, _⟩ := exists_mem_of_lookup_eq_some hlookup
    simpa using ⟨entry.1, ⟨entry.2, hmem⟩, hkey⟩

theorem contains_iff (map : HashMap α β) (key : α) :
    map.contains key = true ↔ ∃ value, map.get? key = some value := by
  rw [contains_eq_isSome, Option.isSome_iff_exists]

theorem contains_eq_false_iff (map : HashMap α β) (key : α) :
    map.contains key = false ↔ map.get? key = none := by
  rw [contains_eq_isSome]
  cases map.get? key <;> simp

theorem exists_key_of_get? {map : HashMap α β} {key : α} {value : β}
    (h : map.get? key = some value) :
    ∃ other ∈ map.keys, (other == key) = true := by
  obtain ⟨entry, hmem, hkey, _⟩ := exists_mem_of_lookup_eq_some h
  exact ⟨entry.1, List.mem_map_of_mem hmem, hkey⟩

@[simp] theorem get?_empty (key : α) : (empty : HashMap α β).get? key = none := rfl

theorem get?_retain (map : HashMap α β) (keep : α → Bool)
    (hkeep : ∀ left right : α, (left == right) = true → keep left = keep right) (key : α) :
    (map.retain keep).get? key = if keep key then map.get? key else none :=
  lookup_filter map.entries keep hkeep key

end Basic

section Equiv

variable [BEq α] [PartialEquivBEq α]

variable {map : HashMap α β} {key : α}

/-- An insertion at a key that is already there keeps the old key. -/
def insert (map : HashMap α β) (key : α) (value : β) : HashMap α β where
  entries :=
    if map.contains key then
      map.entries.map fun entry =>
        if entry.1 == key then (entry.1, value) else entry
    else map.entries ++ [(key, value)]
  nodup := by
    split
    · rw [List.pairwise_map]
      refine map.nodup.imp ?_
      intro left right h
      split <;> split <;> exact h
    · next hmem =>
        rw [List.pairwise_append]
        refine ⟨map.nodup, List.pairwise_singleton _ _, ?_⟩
        intro entry hentry other hother
        rw [List.mem_singleton] at hother
        subst hother
        have hall := List.any_eq_false.mp (Bool.eq_false_iff.mpr hmem)
        simpa using hall entry hentry

omit [PartialEquivBEq α] in
/-- An insertion keeps the keys and adds at most one. -/
theorem mem_entries_insert {value : β} {entry : α × β} (h : entry ∈
    (map.insert key value).entries) :
    (∃ old ∈ map.entries, old.1 = entry.1) ∨ entry.1 = key := by
  change entry ∈ (if map.contains key then _ else _) at h
  split at h
  · obtain ⟨old, hold, rfl⟩ := List.mem_map.mp h
    refine .inl ⟨old, hold, ?_⟩
    split <;> rfl
  · rcases List.mem_append.mp h with hold | hnew
    · exact .inl ⟨entry, hold, rfl⟩
    · rw [List.mem_singleton.mp hnew]
      exact .inr rfl

/-- Collect the entries of a list; later entries overwrite earlier ones. -/
def ofList (entries : List (α × β)) : HashMap α β :=
  entries.foldl (fun map entry => map.insert entry.1 entry.2) empty

theorem get?_congr (map : HashMap α β) {key' : α} (h : (key == key') = true) :
    map.get? key = map.get? key' :=
  lookup_congr map.entries h

theorem contains_congr (map : HashMap α β) {key' : α} (h : (key == key') = true) :
    map.contains key = map.contains key' := by
  rw [contains_eq_isSome, contains_eq_isSome, get?_congr map h]

theorem get?_insert (map : HashMap α β) (key key' : α) (value : β) :
    (map.insert key value).get? key' = if key == key' then some value else map.get? key' := by
  change lookup (if map.contains key then _ else _) key' = _
  cases hmem : map.contains key with
  | false =>
    have hnone := (contains_eq_false_iff map key).mp hmem
    simp only [Bool.false_eq_true, ↓reduceIte]
    rw [lookup_append, lookup_cons]
    cases heq : key == key' with
    | false => simp [lookup, get?]
    | true =>
      rw [← lookup_congr map.entries heq]
      simp [show lookup map.entries key = none from hnone]
  | true =>
    simp only [↓reduceIte]
    rw [lookup_replace]
    cases heq : key == key' with
    | false => rfl
    | true =>
      obtain ⟨old, hold⟩ := (contains_iff map key).mp hmem
      have hold' : lookup map.entries key' = some old := by
        rw [← lookup_congr map.entries heq]
        exact hold
      simp [hold']

theorem get?_foldl_insert (entries : List (α × β)) (map : HashMap α β) (key : α) :
    (entries.foldl (fun map entry => map.insert entry.1 entry.2) map).get? key =
      (lookup entries.reverse key).or (map.get? key) := by
  induction entries generalizing map with
  | nil => rfl
  | cons entry entries ih =>
    rw [List.foldl_cons, ih, get?_insert, List.reverse_cons, lookup_append, lookup_cons,
      Option.or_assoc]
    cases entry.1 == key <;> rfl

/-- The entries of a list without duplicate keys. -/
theorem get?_ofList {entries : List (α × β)}
    (hnodup : entries.Pairwise fun left right => (left.1 == right.1) = false)
    (key : α) : (ofList entries).get? key = lookup entries key := by
  rw [ofList, get?_foldl_insert, get?_empty, Option.or_none]
  exact lookup_perm hnodup entries.reverse_perm key

/-- Inserting entries of the map once more changes nothing. -/
theorem get?_foldl_insert_of_subset {entries : List (α × β)}
    (h : ∀ entry ∈ entries, entry ∈ map.entries) (key : α) :
    (entries.foldl (fun map entry => map.insert entry.1 entry.2) map).get? key = map.get? key := by
  rw [get?_foldl_insert]
  cases hlookup : lookup entries.reverse key with
  | none => rw [Option.none_or]
  | some value =>
    obtain ⟨entry, hmem, hkey, rfl⟩ := exists_mem_of_lookup_eq_some hlookup
    have hentry := h entry (List.mem_reverse.mp hmem)
    rw [Option.some_or, get?, lookup_of_mem map.nodup hentry hkey]

/-- The map that sends the keys of a list to one value. -/
theorem get?_ofList_const (keys : List α) (value : β) (key : α) :
    (ofList (keys.map fun key => (key, value))).get? key =
      if keys.any (· == key) then some value else none := by
  rw [ofList, get?_foldl_insert, get?_empty, Option.or_none, ← List.map_reverse, ← List.any_reverse]
  induction keys.reverse with
  | nil => rfl
  | cons head tail ih =>
    rw [List.map_cons, lookup_cons, ih, List.any_cons]
    cases head == key <;> rfl

theorem get?_erase (map : HashMap α β) (key key' : α) :
    (map.erase key).get? key' = if key == key' then none else map.get? key' := by
  unfold erase
  rw [get?_retain]
  · rw [BEq.comm]
    cases key == key' <;> rfl
  · intro left right h
    rw [BEq.congr_left h]

theorem get?_of_mem {entry : α × β} (hmem : entry ∈ map.entries) (hkey : (entry.1 == key) = true) :
    map.get? key = some entry.2 :=
  lookup_of_mem map.nodup hmem hkey

end Equiv

section Lawful

variable [BEq α] [LawfulBEq α]

theorem contains_iff_mem_keys (map : HashMap α β) (key : α) :
    map.contains key = true ↔ key ∈ map.keys := by
  rw [contains, List.any_eq_true, keys, List.mem_map]
  simp only [beq_iff_eq]

theorem contains_insert_iff (map : HashMap α β) (key other : α) (value : β) :
    (map.insert key value).contains other = true ↔ map.contains other = true ∨ other = key := by
  rw [contains_eq_isSome, get?_insert, contains_eq_isSome]
  by_cases h : key = other
  · simp [h]
  · simp [h, Ne.symm h]

/-- Erasing a key that is there leaves fewer entries. -/
theorem length_erase_lt {map : HashMap α β} {key : α} (h : map.contains key = true) :
    (map.erase key).entries.length < map.entries.length := by
  obtain ⟨entry, hentry, hkey⟩ := List.any_eq_true.mp h
  refine List.length_filter_lt_length_iff_exists.mpr ⟨entry, hentry, ?_⟩
  simpa using hkey

theorem nodup_keys (map : HashMap α β) : map.keys.Nodup := by
  rw [keys, List.Nodup, List.pairwise_map]
  exact map.nodup.imp fun h => beq_eq_false_iff_ne.mp h

/-- A map with one key. -/
theorem length_keys_eq_one_iff (map : HashMap α β) :
    map.keys.length = 1 ↔ ∃ key, ∀ other, map.contains other = true ↔ other = key := by
  simp only [contains_iff_mem_keys, List.length_eq_one_iff]
  refine exists_congr fun key => ⟨fun h other => by rw [h, List.mem_singleton], fun h => ?_⟩
  have hperm : map.keys.Perm [key] :=
    (List.perm_ext_iff_of_nodup map.nodup_keys (List.pairwise_singleton _ key)).mpr
      fun other => by rw [h, List.mem_singleton]
  exact List.perm_singleton.mp hperm

end Lawful

end HashMap

namespace HashSet

section Equiv

variable [BEq α] [PartialEquivBEq α]

def insert (set : HashSet α) (elem : α) : HashSet α := HashMap.insert set elem ()

def ofList (elems : List α) : HashSet α := elems.foldl insert HashMap.empty

/-- The union of two sets. -/
def union (left right : HashSet α) : HashSet α := right.keys.foldl insert left

theorem contains_insert (set : HashSet α) (elem elem' : α) :
    (insert set elem).contains elem' = (elem == elem' || set.contains elem') := by
  rw [HashMap.contains_eq_isSome, insert, HashMap.get?_insert, HashMap.contains_eq_isSome]
  cases elem == elem' <;> rfl

theorem contains_foldl_insert (elems : List α) (set : HashSet α) (elem : α) :
    (elems.foldl insert set).contains elem = (set.contains elem || elems.any (· == elem)) := by
  induction elems generalizing set with
  | nil => simp
  | cons head tail ih =>
    rw [List.foldl_cons, ih, contains_insert, List.any_cons]
    cases set.contains elem <;> cases head == elem <;> simp

end Equiv

section Lawful

variable [BEq α] [LawfulBEq α]

theorem contains_insert_iff (set : HashSet α) (elem other : α) :
    (insert set elem).contains other = true ↔ set.contains other = true ∨ other = elem :=
  HashMap.contains_insert_iff set elem other ()

theorem contains_foldl_insert_iff (elems : List α) (set : HashSet α) (other : α) :
    (elems.foldl insert set).contains other = true ↔ set.contains other = true ∨ other ∈ elems := by
  rw [contains_foldl_insert, Bool.or_eq_true, List.any_eq_true]
  simp only [beq_iff_eq, exists_eq_right]

theorem contains_union_iff (left right : HashSet α) (other : α) :
    (union left right).contains other = true ↔
      left.contains other = true ∨ right.contains other = true := by
  rw [union, contains_foldl_insert_iff, ← HashMap.contains_iff_mem_keys]

end Lawful

end HashSet

/-- The iteration orders of the hash tables met during a run.  An iteration is
named by the path of calls that leads to it, so that two iterations over the
same table need not agree. -/
structure IterOrder where
  shuffle : List Nat → (α : Type) → List α → List α
  perm : ∀ path α list, (shuffle path α list).Perm list

namespace IterOrder

variable {α : Type}

/-- The order of the `index`-th iteration of the current call. -/
def iter (order : IterOrder) (index : Nat) (list : List α) : List α := order.shuffle [index] α list

/-- The orders of the `index`-th call made by the current call. -/
def call (order : IterOrder) (index : Nat) : IterOrder :=
  ⟨fun path => order.shuffle (index :: path), fun path => order.perm (index :: path)⟩

/-- Every iteration goes through the entries as they are. -/
def identity : IterOrder := ⟨fun _ _ list => list, fun _ _ list => List.Perm.refl list⟩

theorem iter_perm (order : IterOrder) (index : Nat) (list : List α) :
    (order.iter index list).Perm list :=
  order.perm [index] α list

theorem mem_iter (order : IterOrder) (index : Nat) (list : List α)
    (elem : α) : elem ∈ order.iter index list ↔ elem ∈ list :=
  (order.iter_perm index list).mem_iff

end IterOrder

end Prusti.Lib

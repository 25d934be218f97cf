/-
The places of a body as a forest: every local is a root, the fields of a struct or
tuple and the target of a pointer are the children of a place.
-/
import Prusti.Lib.Forest
import Prusti.Analysis.PlaceUtils

namespace Prusti.Analysis

open Prusti.Lib Prusti.Mir

universe u

section Order

variable {Ty : Type u}

variable {x y : Place Ty}

/-- A place is at or above those that it is a prefix of. -/
instance : PartialOrder (Place Ty) where
  le x y := x.local = y.local ∧ x.projection <+: y.projection
  le_refl x := ⟨rfl, List.prefix_rfl⟩
  le_trans x y z hxy hyz := ⟨hxy.1.trans hyz.1, hxy.2.trans hyz.2⟩
  le_antisymm x y hxy hyx := by
    obtain ⟨hlocal, hpre⟩ := hxy
    exact Place.ext hlocal (hpre.eq_of_length_le hyx.2.length_le)

theorem place_le_iff : x ≤ y ↔ x.local = y.local ∧ x.projection <+: y.projection := Iff.rfl

theorem zip_all_eq_iff [DecidableEq Ty] {elems others : List (ProjectionElem Ty)}
    (h : others.length ≤ elems.length) :
    ((elems.zip others).all fun pair => pair.1 = pair.2) = true ↔ others <+: elems := by
  induction others generalizing elems with
  | nil => simp
  | cons other others ih =>
    cases elems with
    | nil => simp at h
    | cons elem elems =>
      rw [List.length_cons, List.length_cons, Nat.add_le_add_iff_right] at h
      rw [List.zip_cons_cons, List.all_cons, Bool.and_eq_true, decide_eq_true_iff, ih h,
        List.cons_prefix_cons, eq_comm]

theorem isPrefix_iff [DecidableEq Ty] {place potentialPrefix : Place Ty} :
    isPrefix place potentialPrefix = true ↔ potentialPrefix ≤ place := by
  rw [isPrefix, place_le_iff]
  by_cases hlocal : place.local = potentialPrefix.local
  · by_cases hlength : place.projection.length < potentialPrefix.projection.length
    · rw [if_pos (.inr hlength)]
      refine iff_of_false Bool.false_ne_true fun h => ?_
      have := h.2.length_le
      omega
    · rw [if_neg (by simp [hlocal, hlength]), zip_all_eq_iff (Nat.le_of_not_lt hlength)]
      exact (and_iff_right hlocal.symm).symm
  · rw [if_pos (.inl hlocal)]
    exact iff_of_false Bool.false_ne_true fun h => hlocal h.1.symm

theorem place_le_project (place : Place Ty) (elem : ProjectionElem Ty) :
    place ≤ place.project elem :=
  ⟨rfl, List.prefix_append _ _⟩

theorem length_le_of_le (h : x ≤ y) : x.projection.length ≤ y.projection.length := h.2.length_le

theorem length_lt_of_lt (h : x < y) : x.projection.length < y.projection.length := by
  refine lt_of_le_of_ne (length_le_of_le h.le) fun hlength => h.not_ge ?_
  exact ⟨h.le.1.symm, (h.le.2.eq_of_length hlength) ▸ List.prefix_rfl⟩

theorem place_lt_project (place : Place Ty) (elem : ProjectionElem Ty) :
    place < place.project elem := by
  refine lt_of_le_of_ne (place_le_project place elem) fun heq => ?_
  have := congrArg (fun place => place.projection.length) heq
  simp at this

/-- What lies above a projection is the projection itself or lies above its base. -/
theorem le_project_iff {place : Place Ty} {elem : ProjectionElem Ty} :
    x ≤ place.project elem ↔ x = place.project elem ∨ x ≤ place := by
  constructor
  · rintro ⟨hlocal, hpre⟩
    rcases List.prefix_concat_iff.mp hpre with heq | hle
    · exact .inl (Place.ext hlocal heq)
    · exact .inr ⟨hlocal, hle⟩
  · rintro (rfl | hle)
    · exact le_rfl
    · exact hle.trans (place_le_project place elem)

theorem le_ofLocal_iff {root : Local} : x ≤ Place.ofLocal root ↔ x = Place.ofLocal root := by
  constructor
  · rintro ⟨hlocal, hpre⟩
    exact Place.ext hlocal (List.prefix_nil.mp hpre)
  · rintro rfl
    exact le_rfl

end Order

variable {Ty : Type u} (tcx : TyCtxt Ty) (body : Body Ty)

/-- The projections of a place of some type by one more element.  A box is
dereferenced; it has no fields of its own. -/
def kindElems : TyKind Ty → List (ProjectionElem Ty)
  | .adt _ (some _) _ => [.deref]
  | .adt true none fields => fields.zipIdx.map fun field => .field field.2 field.1
  | .adt false none _ => []
  | .tuple elements => elements.zipIdx.map fun field => .field field.2 field.1
  | .ref _ => [.deref]
  | .rawPtr _ => [.deref]
  | .other => []

def childElems (place : Place Ty) : List (ProjectionElem Ty) :=
  match tcx.placeTy body place with
  | some ⟨ty, none⟩ => kindElems (tcx.kind ty)
  | _ => []

theorem childElems_eq {tcx : TyCtxt Ty} {body : Body Ty} {place : Place Ty} {ty : Ty}
    (hty : tcx.placeTy body place = some ⟨ty, none⟩) :
    childElems tcx body place = kindElems (tcx.kind ty) := by
  rw [childElems, hty]

/-- The places that are built from the locals by struct and tuple fields and
dereferences.  A field element has the type that `kind` gives for the field, which is
taken to be the normalised type with erased regions that the elements of MIR have. -/
inductive IsPlace : Place Ty → Prop where
  | ofLocal {root : Local} (h : root < body.localDecls.length) : IsPlace (Place.ofLocal root)
  | project {place : Place Ty} {elem : ProjectionElem Ty} (h : IsPlace place)
      (helem : elem ∈ childElems tcx body place) : IsPlace (place.project elem)

section

variable {tcx body}

variable {place : Place Ty} {elem : ProjectionElem Ty}

theorem isPlace_of_le {x y : Place Ty} (hle : x ≤ y) (hy : IsPlace tcx body y) :
    IsPlace tcx body x := by
  induction hy with
  | ofLocal h =>
    rw [le_ofLocal_iff.mp hle]
    exact .ofLocal h
  | project h helem ih =>
    rcases le_project_iff.mp hle with rfl | hle
    · exact .project h helem
    · exact ih hle

/-- The type of a projection is found from the type of its base. -/
theorem placeTy_project (place : Place Ty) (elem : ProjectionElem Ty) :
    tcx.placeTy body (place.project elem) =
      (tcx.placeTy body place).bind fun placeTy => tcx.projectionTy placeTy elem := by
  rw [TyCtxt.placeTy, TyCtxt.placeTy, Place.local_project, Place.projection_project]
  cases body.localDecls[place.local]? with
  | none => rfl
  | some ty => simp [List.foldlM_append]

/-- Fields and dereferences are the only projections below a place. -/
theorem childElems_cases (h : elem ∈ childElems tcx body place) :
    (elem = .deref ∧ ∀ other ∈ childElems tcx body place, other = .deref) ∨
      ∃ ty fields, tcx.placeTy body place = some ⟨ty, none⟩ ∧
        (tcx.kind ty = .adt true none fields ∨ tcx.kind ty = .tuple fields) ∧
        childElems tcx body place = fields.zipIdx.map fun field => .field field.2 field.1 := by
  cases hty : tcx.placeTy body place with
  | none => simp [childElems, hty] at h
  | some placeTy =>
    obtain ⟨ty, variantIndex⟩ := placeTy
    cases variantIndex with
    | some variantIndex => simp [childElems, hty] at h
    | none =>
      cases hkind : tcx.kind ty with
      | adt isStruct boxed fields =>
        cases boxed with
        | some boxed =>
          simp only [childElems, kindElems, hty, hkind, List.mem_singleton] at h ⊢
          exact .inl ⟨h, fun _ hother => hother⟩
        | none =>
          cases isStruct with
          | false => simp [childElems, kindElems, hty, hkind] at h
          | true =>
            exact .inr ⟨ty, fields, rfl, .inl hkind, by simp [childElems, kindElems, hty, hkind]⟩
      | tuple elements =>
        exact .inr ⟨ty, elements, rfl, .inr hkind, by simp [childElems, kindElems, hty, hkind]⟩
      | ref pointee =>
        simp only [childElems, kindElems, hty, hkind, List.mem_singleton] at h ⊢
        exact .inl ⟨h, fun _ hother => hother⟩
      | rawPtr pointee =>
        simp only [childElems, kindElems, hty, hkind, List.mem_singleton] at h ⊢
        exact .inl ⟨h, fun _ hother => hother⟩
      | other => simp [childElems, kindElems, hty, hkind] at h

/-- The last projection of a place is one that its base allows. -/
theorem mem_childElems_of_isPlace (h : IsPlace tcx body (place.project elem)) :
    elem ∈ childElems tcx body place := by
  generalize heq : place.project elem = projected at h
  cases h with
  | ofLocal h =>
    have := congrArg (fun place => place.projection.length) heq
    simp [Place.ofLocal] at this
  | @project place' elem' h helem =>
    obtain ⟨hlocal, hprojection⟩ := Place.mk.inj heq
    obtain ⟨hbase, helems⟩ := List.append_inj' hprojection rfl
    obtain rfl : elem = elem' := List.singleton_inj.mp helems
    obtain rfl : place = place' := Place.ext hlocal hbase
    exact helem

theorem exists_projectionTy (h : elem ∈ childElems tcx body place) :
    ∃ placeTy ty, tcx.placeTy body place = some placeTy ∧
      tcx.projectionTy placeTy elem = some ⟨ty, none⟩ := by
  rcases childElems_cases h with ⟨rfl, -⟩ | ⟨ty, fields, hty, -, helems⟩
  · cases hty : tcx.placeTy body place with
    | none => simp [childElems, hty] at h
    | some placeTy =>
      obtain ⟨ty, variantIndex⟩ := placeTy
      suffices hderef : ∃ pointee, tcx.builtinDeref ty = some pointee by
        obtain ⟨pointee, hpointee⟩ := hderef
        exact ⟨_, pointee, rfl, by rw [TyCtxt.projectionTy, hpointee]; rfl⟩
      cases variantIndex with
      | some variantIndex => simp [childElems, hty] at h
      | none =>
        cases hkind : tcx.kind ty with
        | adt isStruct boxed fields =>
          cases boxed with
          | some pointee => exact ⟨pointee, by rw [TyCtxt.builtinDeref, hkind]⟩
          | none => cases isStruct <;> simp [childElems, kindElems, hty, hkind] at h
        | tuple elements => simp [childElems, kindElems, hty, hkind] at h
        | ref pointee => exact ⟨pointee, by rw [TyCtxt.builtinDeref, hkind]⟩
        | rawPtr pointee => exact ⟨pointee, by rw [TyCtxt.builtinDeref, hkind]⟩
        | other => simp [childElems, kindElems, hty, hkind] at h
  · rw [helems] at h
    obtain ⟨field, -, rfl⟩ := List.mem_map.mp h
    exact ⟨_, field.1, hty, rfl⟩

/-- Every place has a type, and is not a downcast. -/
theorem IsPlace.exists_ty (h : IsPlace tcx body place) :
    ∃ ty, tcx.placeTy body place = some ⟨ty, none⟩ := by
  cases h with
  | @ofLocal root h =>
    refine ⟨body.localDecls[root], ?_⟩
    rw [TyCtxt.placeTy, Place.ofLocal, List.getElem?_eq_getElem h]
    rfl
  | project h helem =>
    obtain ⟨placeTy, ty, hplaceTy, hty⟩ := exists_projectionTy helem
    exact ⟨ty, by rw [placeTy_project, hplaceTy]; exact hty⟩

theorem mem_fieldPlaces_iff {child : Place Ty} {fields : List Ty} {index : Nat} {fieldTy : Ty}
    (h : (fieldTy, index) ∈ fields.zipIdx) :
    child ∈ fieldPlaces place fields (some index) ↔
      (∃ field ∈ fields.zipIdx, child = place.project (.field field.2 field.1)) ∧
        child ≠ place.project (.field index fieldTy) := by
  have hget := List.mem_zipIdx_iff_getElem?.mp h
  simp only [fieldPlaces, List.mem_map, List.mem_filter, decide_eq_true_eq]
  constructor
  · rintro ⟨field, ⟨hfield, hne⟩, rfl⟩
    refine ⟨⟨field, hfield, rfl⟩, fun heq => hne ?_⟩
    simp only [Place.project, Place.mk.injEq, List.append_cancel_left_eq, List.cons.injEq,
      ProjectionElem.field.injEq, and_true, true_and] at heq
    rw [heq.1]
  · rintro ⟨⟨field, hfield, rfl⟩, hne⟩
    refine ⟨field, ⟨hfield, fun heq => hne ?_⟩, rfl⟩
    have hindex := Option.some_inj.mp heq
    have hget' := List.mem_zipIdx_iff_getElem?.mp hfield
    rw [hindex] at hget'
    rw [hindex, Option.some_inj.mp (hget'.symm.trans hget)]

theorem mem_fieldPlaces_none_iff {child : Place Ty} {fields : List Ty} :
    child ∈ fieldPlaces place fields none ↔
      ∃ elem ∈ fields.zipIdx.map fun field => ProjectionElem.field field.2 field.1,
        child = place.project elem := by
  simp [fieldPlaces, eq_comm]

/-- The fields that a place is expanded to are its children, if they are places at all. -/
theorem mem_childElems_of_fields {fields : List (Place Ty)} (hne : fields ≠ [])
    (hfields : expandStructPlace tcx body place none = some fields)
    (hplaces : ∀ field ∈ fields, IsPlace tcx body field) (child : Place Ty) :
    (∃ elem ∈ childElems tcx body place, child = place.project elem) ↔ child ∈ fields := by
  cases hty : tcx.placeTy body place with
  | none => simp [expandStructPlace, hty] at hfields
  | some placeTy =>
    obtain ⟨ty, variantIndex⟩ := placeTy
    cases variantIndex with
    | some variantIndex =>
      simp only [expandStructPlace, hty, Option.bind_eq_bind, Option.bind_some,
        Option.isSome_some, ↓reduceIte, Option.some_inj] at hfields
      exact absurd hfields.symm hne
    | none =>
      simp only [expandStructPlace, hty, Option.bind_eq_bind, Option.bind_some,
        Option.isSome_none, Bool.false_eq_true, ↓reduceIte] at hfields
      cases hkind : tcx.kind ty with
      | adt isStruct boxed fieldTys =>
        cases isStruct with
        | false => simp [hkind] at hfields
        | true =>
          simp only [hkind, ↓reduceIte, Option.some_inj] at hfields
          subst hfields
          cases boxed with
          | none =>
            simp only [childElems, kindElems, hty, hkind]
            exact mem_fieldPlaces_none_iff.symm
          | some boxed =>
            -- The private fields of a box are no places.
            obtain ⟨field, hfield⟩ := List.exists_mem_of_ne_nil _ hne
            have hplace := hplaces field hfield
            obtain ⟨elem, helem, rfl⟩ := mem_fieldPlaces_none_iff.mp hfield
            have hmem := mem_childElems_of_isPlace hplace
            simp only [childElems, kindElems, hty, hkind, List.mem_singleton] at hmem
            obtain ⟨_, -, hderef⟩ := List.mem_map.mp helem
            rw [hmem] at hderef
            cases hderef
      | tuple elements =>
        simp only [hkind, Option.some_inj] at hfields
        subst hfields
        simp only [childElems, kindElems, hty, hkind]
        exact mem_fieldPlaces_none_iff.symm
      | ref pointee =>
        simp only [hkind, Option.some_inj] at hfields
        subst hfields
        simp [childElems, kindElems, hty, hkind]
      | rawPtr pointee => simp [hkind] at hfields
      | other => simp [hkind] at hfields

/-- The projection on the way to a place below. -/
theorem getElem?_of_project_le {x guide : Place Ty} (h : x.project elem ≤ guide) :
    guide.projection[x.projection.length]? = some elem := by
  obtain ⟨rest, hrest⟩ := h.2
  rw [← hrest, Place.projection_project, List.append_assoc]
  simp

end

variable [DecidableEq Ty]

def placeChildren (place : Place Ty) : Finset (Place Ty) :=
  ((childElems tcx body place).map place.project).toFinset

variable {tcx body}

theorem mem_placeChildren_iff {place child : Place Ty} :
    child ∈ placeChildren tcx body place ↔
      ∃ elem ∈ childElems tcx body place, child = place.project elem := by
  rw [placeChildren, List.mem_toFinset, List.mem_map]
  simp only [eq_comm]

theorem exists_placeChild {x y : Place Ty} (hy : IsPlace tcx body y) (hlt : x < y) :
    ∃ child ∈ placeChildren tcx body x, child ≤ y := by
  induction hy with
  | ofLocal h => exact absurd (le_ofLocal_iff.mp hlt.le) hlt.ne
  | @project place elem h helem ih =>
    rcases le_project_iff.mp hlt.le with heq | hle
    · exact absurd heq hlt.ne
    · rcases hle.eq_or_lt with rfl | hlt
      · exact ⟨_, mem_placeChildren_iff.mpr ⟨elem, helem, rfl⟩, le_rfl⟩
      · obtain ⟨child, hchild, hle⟩ := ih hlt
        exact ⟨child, hchild, hle.trans (place_le_project place elem)⟩

variable (tcx body)

def placeForest : Forest (Place Ty) where
  children := placeChildren tcx body
  depth place := place.projection.length
  Node := IsPlace tcx body
  comparable := by
    rintro x y z ⟨hx, hxz⟩ ⟨hy, hyz⟩
    rcases List.prefix_or_prefix_of_prefix hxz hyz with h | h
    · exact .inl ⟨hx.trans hy.symm, h⟩
    · exact .inr ⟨hy.trans hx.symm, h⟩
  depth_lt := length_lt_of_lt
  lt_child := by
    intro x child hchild
    obtain ⟨elem, -, rfl⟩ := mem_placeChildren_iff.mp hchild
    exact place_lt_project x elem
  depth_child := by
    intro x child hchild
    obtain ⟨elem, -, rfl⟩ := mem_placeChildren_iff.mp hchild
    exact List.length_append
  node_of_le := isPlace_of_le
  node_child := by
    intro x child hx hchild
    obtain ⟨elem, helem, rfl⟩ := mem_placeChildren_iff.mp hchild
    exact .project hx helem
  exists_child := exists_placeChild

variable {tcx body}

theorem not_mem_children_of_root (root : Local) (x : Place Ty) :
    Place.ofLocal root ∉ (placeForest tcx body).children x := by
  intro hmem
  have hlt := (placeForest tcx body).lt_child hmem
  exact hlt.ne (le_ofLocal_iff.mp hlt.le)

section Expand

variable {x guide : Place Ty}

/-- One level down is a child on the way to the guide, beside the other children. -/
theorem expandOneLevel_spec (hguide : IsPlace tcx body guide) (hlt : x < guide) :
    ∃ child others, expandOneLevel tcx body x guide = some (child, others) ∧
      child ∈ placeChildren tcx body x ∧ child ≤ guide ∧
        ∀ y, y ∈ others ↔ y ∈ placeChildren tcx body x ∧ y ≠ child := by
  obtain ⟨child, hchild, hle⟩ := exists_placeChild hguide hlt
  obtain ⟨elem, helem, rfl⟩ := mem_placeChildren_iff.mp hchild
  have hget := getElem?_of_project_le hle
  rcases childElems_cases helem with ⟨rfl, hall⟩ | ⟨ty, fields, hty, hkind, helems⟩
  · refine ⟨_, [], by rw [expandOneLevel, hget]; rfl, hchild, hle, ?_⟩
    intro y
    refine iff_of_false List.not_mem_nil ?_
    rintro ⟨hy, hne⟩
    obtain ⟨other, hother, rfl⟩ := mem_placeChildren_iff.mp hy
    rw [hall other hother] at hne
    exact hne rfl
  · rw [helems, List.mem_map] at helem
    obtain ⟨⟨fieldTy, index⟩, hfield, rfl⟩ := helem
    have hexpand : expandStructPlace tcx body x (some index) =
        some (fieldPlaces x fields (some index)) := by
      rw [expandStructPlace, hty]
      rcases hkind with hkind | hkind
      · simp [hkind]
      · simp [hkind]
    refine ⟨_, fieldPlaces x fields (some index), ?_, hchild, hle, ?_⟩
    · rw [expandOneLevel, hget]
      change (expandStructPlace tcx body x (some index)).bind _ = _
      rw [hexpand]
      rfl
    · intro y
      rw [mem_fieldPlaces_iff hfield, mem_placeChildren_iff, helems]
      simp only [List.mem_map, exists_exists_and_eq_and]

/-- The places that `expand` returns are the siblings of the nodes on the way. -/
theorem expandLevels_spec (hguide : IsPlace tcx body guide) {levels : Nat} (hle : x ≤ guide)
    (hlevels : guide.projection.length = x.projection.length + levels) :
    ∃ places, expandLevels tcx body guide levels x = some places ∧
      ∀ y, y ∈ places ↔ ∃ z, x ≤ z ∧ z < guide ∧ y ∈ placeChildren tcx body z ∧ ¬ y ≤ guide := by
  induction levels generalizing x with
  | zero =>
    refine ⟨[], rfl, fun y => iff_of_false List.not_mem_nil ?_⟩
    rintro ⟨z, hxz, hz, -⟩
    have := length_lt_of_lt (hxz.trans_lt hz)
    omega
  | succ levels ih =>
    have hlt : x < guide := lt_of_le_of_ne hle (by rintro rfl; omega)
    obtain ⟨child, others, hone, hchild, hchildGuide, hothers⟩ := expandOneLevel_spec hguide hlt
    have hdepth := (placeForest tcx body).depth_child hchild
    have hxchild := (placeForest tcx body).lt_child hchild
    obtain ⟨rest, hrest, hmem⟩ := ih hchildGuide (by
      change child.projection.length = x.projection.length + 1 at hdepth
      omega)
    refine ⟨others ++ rest, ?_, ?_⟩
    · rw [expandLevels, hone]
      change (expandLevels tcx body guide levels child).bind _ = _
      rw [hrest]
      rfl
    · intro y
      rw [List.mem_append, hothers, hmem]
      constructor
      · rintro (⟨hy, hne⟩ | ⟨z, hz, hrest⟩)
        · refine ⟨x, le_rfl, hlt, hy, fun hyGuide => hne ?_⟩
          rcases (placeForest tcx body).comparable hyGuide hchildGuide with h | h
          · exact (placeForest tcx body).child_eq_of_le hy hchild h
          · exact ((placeForest tcx body).child_eq_of_le hchild hy h).symm
        · exact ⟨z, hxchild.le.trans hz, hrest⟩
      · rintro ⟨z, hz, hzGuide, hy, hnot⟩
        rcases (placeForest tcx body).comparable hzGuide.le hchildGuide with h | h
        · rcases h.eq_or_lt with rfl | hlt
          · exact .inr ⟨z, le_rfl, hzGuide, hy, hnot⟩
          · have hzx := (placeForest tcx body).le_of_lt_child hchild hlt
            obtain rfl := le_antisymm hz hzx
            exact .inl ⟨hy, fun heq => hnot (heq ▸ hchildGuide)⟩
        · exact .inr ⟨z, h, hzGuide, hy, hnot⟩

end Expand

end Prusti.Analysis

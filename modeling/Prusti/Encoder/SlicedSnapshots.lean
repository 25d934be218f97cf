/-
The postconditions of the functions that read arrays and slices, which the verifier does
not check, and slices of arrays and of slices.
-/
import Prusti.Encoder.SnapFunctions

namespace Prusti.Vir

/-- The part of an assertion that is inhaled. -/
def Expr.inhaled : Expr → Expr
  | .inhaleExhale inhaleExpr _ _ => inhaleExpr
  | expr => expr

def Function.apply (func : Function) (args : List Expr) : Expr :=
  .funcApp func.name args func.formalArgs func.returnType Position.default

end Prusti.Vir

namespace Prusti.Snapshots

open Prusti.Vir Prusti.Lib
open Prusti.Encoder (ofBigInt)

variable {idx : Expr} {index : Int}

section Definitions

def sliceHelperName : String := "slice_helper"

/-- The function that collects the elements between two indices of a snapshot. -/
def encodeSliceHelper (selfSnapTyp elemSnapTyp : Typ) (read : DomainFunc) (baseLen : Expr) :
    Function :=
  let self := Expr.ofLocal ⟨"self", selfSnapTyp⟩
  let seqTyp : Typ := .seq elemSnapTyp
  let lo := Expr.ofLocal ⟨"lo", .int⟩
  let hi := Expr.ofLocal ⟨"hi", .int⟩
  let result := Expr.ofLocal ⟨"__result", seqTyp⟩
  let i := Expr.ofLocal ⟨"i", .int⟩
  let j := Expr.ofLocal ⟨"j", .int⟩
  let resultLen := Expr.containerOp .seqLen result (Expr.ofInt 0) Position.default
  let resultAt := fun idx => Expr.containerOp .seqIndex result idx Position.default
  let readAt := fun idx => read.apply [self, idx]
  let indices := Expr.mkAnd (Expr.mkAnd (Expr.leCmp lo i) (Expr.ltCmp i hi))
    (Expr.mkAnd (Expr.mkAnd (Expr.leCmp (Expr.ofInt 0) j) (Expr.ltCmp j hi))
      (Expr.eqCmp i (Expr.mkBinOp .add j lo)))
  let readEqSeqLookup := forallExpr [⟨"i", .int⟩, ⟨"j", .int⟩] [[readAt i, resultAt j]]
    (Expr.implies indices (Expr.eqCmp (readAt i) (resultAt j)))
  { name := sliceHelperName
    formalArgs := [⟨"self", selfSnapTyp⟩, ⟨"lo", .int⟩, ⟨"hi", .int⟩]
    returnType := seqTyp
    pres := [Expr.leCmp (Expr.ofInt 0) lo, Expr.leCmp lo hi, Expr.leCmp hi baseLen]
    posts := [Expr.eqCmp resultLen (Expr.mkBinOp .sub hi lo),
      Expr.implies (Expr.ltCmp lo hi) (Expr.eqCmp (resultAt (Expr.ofInt 0)) (readAt lo)),
      readEqSeqLookup]
    body := some (.cond (Expr.mkBinOp .geCmp lo hi) (.seq seqTyp [] Position.default)
      (.containerOp .seqConcat (.seq seqTyp [readAt lo] Position.default)
        (.funcApp sliceHelperName [self, Expr.mkBinOp .add lo (Expr.ofInt 1), hi]
          [⟨"slice", selfSnapTyp⟩, ⟨"lo", .int⟩, ⟨"hi", .int⟩] seqTyp Position.default)
        Position.default) Position.default) }

namespace TypeEnv

variable (env : TypeEnv)

/-- The function that reads the elements of the snapshot of an array or a slice. -/
def readFunc (ty : Ty) : Option DomainFunc :=
  match env.encodeSnapshotInternal (stripRefsAndBoxes ty) with
  | some (.array _ _ _ read) | some (.slice _ _ _ _ read _) => some read
  | _ => none

/-- The slice helper of the snapshot of an array or a slice. -/
def sliceHelper (ty : Ty) : Option Function :=
  let ty := stripRefsAndBoxes ty
  let predicateName := env.predicateName ty
  match ty, env.encodeSnapshotInternal ty with
  | .array elem length, some (.array _ _ _ read) =>
    some (encodeSliceHelper (.snapshot predicateName) (env.encodeType elem) read (ofBigInt length))
  | .slice elem, some (.slice _ _ _ _ read len) =>
    some (encodeSliceHelper (.snapshot predicateName) (env.encodeType elem) read
      (len.apply [Expr.ofLocal ⟨"self", .snapshot predicateName⟩]))
  | _, _ => none

/-- The snapshot of a part of an array or of a slice; `none` stands for the errors. -/
def encodeSlicing (baseTy : Ty) (base : Expr) (sliceTy : Ty) (lo hi : Expr) : Option Expr := do
  let sliceHelper ← env.sliceHelper baseTy
  match env.encodeSnapshotInternal (stripRefsAndBoxes sliceTy) with
  | some (.slice _ _ _ cons _ _) => some (cons.apply [sliceHelper.apply [base, lo, hi]])
  | _ => none

end TypeEnv

end Definitions

section Values

variable {I : Interp} {calls : I.Calls} {vars : I.Env} {left right : Expr}

variable {elems : List (Value I.E)}

attribute [local simp] Interp.value Interp.values Interp.binOpValue

theorem value_binOp {kind : BinOpKind} {leftVal rightVal : Value I.E}
    (hleft : I.value calls vars left = some leftVal)
    (hright : I.value calls vars right = some rightVal) :
    I.value calls vars (Expr.mkBinOp kind left right) = I.binOpValue kind leftVal rightVal := by
  simp [Expr.mkBinOp, hleft, hright]

section Operators

variable {m n : Int} (hleft : I.value calls vars left = some (.int m))
variable (hright : I.value calls vars right = some (.int n))

include hleft hright

theorem value_leCmp : I.value calls vars (Expr.leCmp left right) = some (.bool (decide (m ≤ n))) :=
  value_binOp hleft hright

theorem value_ltCmp : I.value calls vars (Expr.ltCmp left right) = some (.bool (decide (m < n))) :=
  value_binOp hleft hright

theorem value_geCmp :
    I.value calls vars (Expr.mkBinOp .geCmp left right) = some (.bool (decide (n ≤ m))) :=
  value_binOp hleft hright

theorem value_add : I.value calls vars (Expr.mkBinOp .add left right) = some (.int (m + n)) :=
  value_binOp hleft hright

theorem value_sub : I.value calls vars (Expr.mkBinOp .sub left right) = some (.int (m - n)) :=
  value_binOp hleft hright

end Operators

theorem value_mkAnd {b c : Bool} (hleft : I.value calls vars left = some (.bool b))
    (hright : I.value calls vars right = some (.bool c)) :
    I.value calls vars (Expr.mkAnd left right) = some (.bool (b && c)) :=
  value_binOp hleft hright

theorem value_seqIndex {expr : Expr} (hexpr : I.value calls vars expr = some (.seq elems))
    (hidx : I.value calls vars idx = some (.int index)) :
    I.value calls vars (.containerOp .seqIndex expr idx Position.default) =
      some (indexed I (Interp.elemTypOf expr) elems index) := by
  simp only [Interp.value, hexpr, hidx]
  exact containerOpValue_seqIndex elems index

/-- An element of a sequence, at an index in its bounds. -/
theorem indexed_eq {elemTyp : Typ} (h : 0 ≤ index) {elem : Value I.E}
    (helem : elems[index.toNat]? = some elem) :
    indexed I elemTyp elems index = elem := by
  rw [indexed, if_pos h, helem, Option.getD_some]

open Classical in
theorem value_forallExpr (binders : List LocalVar) (triggers : List (List Expr)) (body : Expr) :
    I.value calls vars (forallExpr binders triggers body) = some (.bool true) ↔
      ∀ vals, I.HasSorts binders vals →
        I.value calls (vars.bind binders vals) body = some (.bool true) := by
  simp [forallExpr]

theorem value_seqLen {expr : Expr} (hexpr : I.value calls vars expr = some (.seq elems)) :
    I.value calls vars (.containerOp .seqLen expr (Expr.ofInt 0) Position.default) =
      some (.int elems.length) := by
  simp only [Interp.value, hexpr, Interp.value_ofInt]
  rfl

/-- An implication holds when its guard has a value, and its body holds if the guard does. -/
theorem value_implies {b : Bool} (hleft : I.value calls vars left = some (.bool b))
    {c : Bool} (hright : I.value calls vars right = some (.bool c)) (h : b = true → c = true) :
    I.value calls vars (Expr.implies left right) = some (.bool true) := by
  rw [Expr.implies, value_binOp hleft hright]
  cases b with
  | false => rfl
  | true =>
    rw [h rfl]
    rfl

/-- An index of a quantifier. -/
theorem eq_singleton_of_hasSorts {name : String} {vals : List (Value I.E)}
    (h : I.HasSorts [⟨name, .int⟩] vals) : ∃ index : Int, vals = [.int index] := by
  obtain ⟨val, rest, ⟨index, rfl⟩, hrest, rfl⟩ := List.forall₂_cons_left_iff.mp h
  rw [List.forall₂_nil_left_iff.mp hrest]
  exact ⟨index, rfl⟩

open Classical in
/-- A quantifier over the indices from `lo` on, and over the same indices counted from
zero. -/
theorem value_forall_shifted {lo hi bound : Expr} {loVal hiVal boundVal : Int}
    {leftAt rightAt : Int → Value I.E} (triggers : List (List Expr))
    (hlo : ∀ i j : Int, I.value calls (("i", .int i) :: ("j", .int j) :: vars) lo =
      some (.int loVal))
    (hhi : ∀ i j : Int, I.value calls (("i", .int i) :: ("j", .int j) :: vars) hi =
      some (.int hiVal))
    (hbound : ∀ i j : Int, I.value calls (("i", .int i) :: ("j", .int j) :: vars) bound =
      some (.int boundVal))
    (hleft : ∀ i j : Int, I.value calls (("i", .int i) :: ("j", .int j) :: vars) left =
      some (leftAt i))
    (hright : ∀ i j : Int, I.value calls (("i", .int i) :: ("j", .int j) :: vars) right =
      some (rightAt j))
    (h : ∀ j : Int, 0 ≤ j → j + loVal < hiVal → leftAt (j + loVal) = rightAt j) :
    I.value calls vars (forallExpr [⟨"i", .int⟩, ⟨"j", .int⟩] triggers
      (Expr.implies
        (Expr.mkAnd
          (Expr.mkAnd (Expr.leCmp lo (Expr.ofLocal ⟨"i", .int⟩))
            (Expr.ltCmp (Expr.ofLocal ⟨"i", .int⟩) hi))
          (Expr.mkAnd
            (Expr.mkAnd (Expr.leCmp (Expr.ofInt 0) (Expr.ofLocal ⟨"j", .int⟩))
              (Expr.ltCmp (Expr.ofLocal ⟨"j", .int⟩) bound))
            (Expr.eqCmp (Expr.ofLocal ⟨"i", .int⟩)
              (Expr.mkBinOp .add (Expr.ofLocal ⟨"j", .int⟩) lo))))
        (Expr.eqCmp left right))) = some (.bool true) := by
  refine (value_forallExpr _ _ _).mpr fun vals hvals => ?_
  obtain ⟨_, rest, ⟨i, rfl⟩, hrest, rfl⟩ := List.forall₂_cons_left_iff.mp hvals
  obtain ⟨j, rfl⟩ := eq_singleton_of_hasSorts hrest
  let vars' : I.Env := ("i", .int i) :: ("j", .int j) :: vars
  have hi' : I.value calls vars' (Expr.ofLocal ⟨"i", .int⟩) = some (.int i) := rfl
  have hj : I.value calls vars' (Expr.ofLocal ⟨"j", .int⟩) = some (.int j) := rfl
  refine value_implies
    (value_mkAnd (value_mkAnd (value_leCmp (hlo i j) hi') (value_ltCmp hi' (hhi i j))) (value_mkAnd
        (value_mkAnd (value_leCmp (Interp.value_ofInt 0) hj) (value_ltCmp hj (hbound i j)))
        (Interp.value_eqCmp hi' (value_add hj (hlo i j)))))
    (Interp.value_eqCmp (hleft i j) (hright i j)) ?_
  intro hindices
  simp only [Bool.and_eq_true, decide_eq_true_iff, Value.int.injEq] at hindices ⊢
  obtain ⟨⟨-, hlt⟩, ⟨hj0, -⟩, rfl⟩ := hindices
  exact h j hj0 hlt

end Values

section Functions

variable {I : Interp} (calls : I.Calls)

/-- A call of the function returns what its body yields. -/
def ReturnsBody (func : Function) (args : List (Value I.E)) : Prop :=
  calls func.name (func.formalArgs.map (·.typ)) args = callBody I calls func args

/-- A postcondition holds for the arguments and the result of a call. -/
def PostHolds (func : Function) (args : List (Value I.E)) (result : Value I.E) (post : Expr) :
    Prop :=
  I.value calls (("__result", result) :: Interp.Env.bind [] func.formalArgs args)
    post.inhaled = some (.bool true)

/-- The call returns, and all postconditions of the function hold. -/
def PostsHold (func : Function) (args : List (Value I.E)) : Prop :=
  ∃ result, callBody I calls func args = some result ∧
    ∀ post ∈ func.posts, PostHolds calls func args result post

/-- The elements that are looked up in an instance of an array or a slice.  Outside of its
bounds the lookup returns anything. -/
structure LooksUp (predicateName : String) (elemTyp : Typ) (x : HeapValue)
    (elems : List (Value I.E)) : Prop where
  sorted : ∀ elem ∈ elems, I.HasSort elemTyp elem
  total : ∀ index : Int,
    ∃ elem, calls "lookup_pure" [.typedRef predicateName, .int] [.ref x, .int index] = some elem
  lookup : ∀ (index : Nat) (h : index < elems.length),
    calls "lookup_pure" [.typedRef predicateName, .int] [.ref x, .int index] = some elems[index]

end Functions

section Posts

variable {I : Interp} {calls : I.Calls} {predicateName : String} {elemTyp : Typ}
variable {x : HeapValue} {elems : List (Value I.E)} {vars : I.Env}

theorem value_lookupPureCall {self : Expr} (hself : I.value calls vars self = some (.ref x))
    (hidx : I.value calls vars idx = some (.int index)) :
    I.value calls vars (lookupPureCall predicateName elemTyp self idx) =
      calls "lookup_pure" [.typedRef predicateName, .int] [.ref x, .int index] := by
  simp [lookupPureCall, Interp.value, Interp.values, hself, hidx]

/-- The instance that a function gets. -/
theorem value_argRefExpr (hself : vars.lookup "self" = some (.ref x)) :
    I.value calls vars (argRefExpr predicateName) = some (.ref x) :=
  hself

theorem value_sliceLenCall (hself : vars.lookup "self" = some (.ref x)) :
    I.value calls vars (sliceLenCall predicateName (argRefExpr predicateName)) =
      calls "Slice$len" [.typedRef predicateName] [.ref x] := by
  rw [sliceLenCall, Interp.value, Interp.values_singleton (value_argRefExpr hself)]
  rfl

theorem value_sliceCollectCall (argName : String) (hself : vars.lookup "self" = some (.ref x))
    (hidx : I.value calls vars idx = some (.int index)) :
    I.value calls vars (sliceCollectCall predicateName elemTyp idx argName) =
      calls (sliceCollectName predicateName) [.typedRef predicateName, .int]
        [.ref x, .int index] := by
  rw [sliceCollectCall, Interp.value, Interp.values, value_argRefExpr hself,
    Interp.values_singleton hidx]
  rfl

theorem LooksUp.hasSort (h : LooksUp calls predicateName elemTyp x elems) :
    I.HasSort (.seq elemTyp) (.seq elems) :=
  ⟨elems, rfl, h.sorted⟩

open Classical in
/-- The snapshot reads the element that is looked up, at every index in its bounds. -/
theorem value_readEqLookup (hlooks : LooksUp calls predicateName elemTyp x elems)
    {argName : String} (hread : I.Holds [] (seqReadAxiom predicateName elemTyp argName).expr)
    {length : Expr} (hself : vars.lookup "self" = some (.ref x))
    (hresult : vars.lookup "__result" =
      some (I.func (seqConsFunc predicateName elemTyp) [.seq elems]))
    (hlength : ∀ index : Int, I.value calls (("i", .int index) :: vars) length =
      some (.int elems.length)) :
    I.value calls vars (readEqLookup predicateName elemTyp argName length).inhaled =
      some (.bool true) := by
  refine (value_forallExpr _ _ _).mpr fun vals hvals => ?_
  obtain ⟨index, rfl⟩ := eq_singleton_of_hasSorts hvals
  obtain ⟨elem, helem⟩ := hlooks.total index
  let vars' : I.Env := ("i", .int index) :: vars
  have hi : I.value calls vars' (Expr.ofLocal ⟨"i", .int⟩) = some (.int index) := rfl
  have hself' : I.value calls vars' (argRefExpr predicateName) = some (.ref x) :=
    value_argRefExpr hself
  have hresult' : I.value calls vars'
      (Expr.ofLocal ⟨"__result", .snapshot predicateName⟩) = _ := hresult
  have hlookup : I.value calls vars' (lookupPureCall predicateName elemTyp
      (argRefExpr predicateName) (Expr.ofLocal ⟨"i", .int⟩)) = some elem :=
    (value_lookupPureCall hself' hi).trans helem
  have hreadCall : I.value calls vars' ((seqReadFunc predicateName elemTyp argName).apply
      [Expr.ofLocal ⟨"__result", .snapshot predicateName⟩, Expr.ofLocal ⟨"i", .int⟩]) =
        some (indexed I elemTyp elems index) := by
    rw [Interp.value_apply (by rw [Interp.values, hresult', Interp.values_singleton hi]),
      holds_seqReadAxiom_iff argName |>.mp hread elems hlooks.hasSort index]
  have hlower : I.value calls vars' (Expr.leCmp (Expr.ofInt 0) (Expr.ofLocal ⟨"i", .int⟩)) =
      some (.bool (decide (0 ≤ index))) := value_binOp (Interp.value_ofInt 0) hi
  have hupper : I.value calls vars' (Expr.ltCmp (Expr.ofLocal ⟨"i", .int⟩) length) =
      some (.bool (decide (index < elems.length))) := value_binOp hi (hlength index)
  refine value_implies (value_binOp hlower hupper) (value_binOp hreadCall hlookup) ?_
  -- an index in the bounds
  intro hindices
  rw [Bool.and_eq_true, decide_eq_true_iff, decide_eq_true_iff] at hindices
  obtain ⟨index, rfl⟩ := Int.eq_ofNat_of_zero_le hindices.1
  have hlt : index < elems.length := by omega
  have heq := hlooks.lookup index hlt
  rw [helem, Option.some.injEq] at heq
  rw [decide_eq_true_iff, indexed_eq (by omega) (List.getElem?_eq_getElem hlt), heq]

/-- The value of the body of the snap function of an array. -/
theorem value_arraySnapBody (hlooks : LooksUp calls predicateName elemTyp x elems)
    (hself : vars.lookup "self" = some (.ref x)) :
    I.value calls vars (arraySnapBody predicateName elemTyp elems.length) =
      some (I.func (seqConsFunc predicateName elemTyp) [.seq elems]) := by
  rw [arraySnapBody_eq]
  refine Interp.value_apply (Interp.values_singleton ?_)
  rw [Interp.value]
  refine Option.map_eq_some_iff.mpr ⟨elems, values_map ?_, rfl⟩
  rw [List.forall₂_iff_get]
  refine ⟨List.length_range, fun idx hidx hidx' => ?_⟩
  rw [List.get_eq_getElem, List.get_eq_getElem, List.getElem_range,
    value_lookupPureCall (value_argRefExpr hself) (Interp.value_ofBigInt _)]
  exact hlooks.lookup idx hidx'

theorem postsHold_arraySnap (hmodels : I.Models (arrayDomain predicateName elemTyp))
    (hlooks : LooksUp calls predicateName elemTyp x elems) {length : Nat}
    (hlength : elems.length = length) :
    PostsHold calls (snapFunction predicateName
      [readEqLookup predicateName elemTyp "arr" (ofBigInt length)]
      (arraySnapBody predicateName elemTyp length)) [.ref x] := by
  subst hlength
  refine ⟨_, value_arraySnapBody hlooks rfl, ?_⟩
  intro post hpost
  rw [List.mem_singleton.mp hpost]
  exact value_readEqLookup hlooks (hmodels.holds _ (.tail _ (.head _))) rfl rfl
    fun _ => Interp.value_ofBigInt _

section Slices

variable (hlooks : LooksUp calls predicateName elemTyp x elems)
variable (hlen : calls "Slice$len" [.typedRef predicateName] [.ref x] = some (.int elems.length))
variable (hreturns : ∀ start : Int, 0 ≤ start →
  ReturnsBody calls (sliceCollectFunc predicateName elemTyp) [.ref x, .int start])

include hlooks hlen hreturns

/-- What is collected from an index on: nothing from the length on. -/
theorem callBody_sliceCollect_eq (start : Nat) :
    callBody I calls (sliceCollectFunc predicateName elemTyp) [.ref x, .int start] =
      some (.seq (elems.drop start)) := by
  -- the induction is on the number of elements that are left
  induction hleft : elems.length - start generalizing start with
  | zero => rw [callBody_sliceCollect hlen, if_pos (by omega), List.drop_eq_nil_of_le (by omega)]
  | succ left ih =>
    have hlt : start < elems.length := by omega
    have hrest : calls (sliceCollectName predicateName) [.typedRef predicateName, .int]
        [.ref x, .int (start + 1)] = some (.seq (elems.drop (start + 1))) :=
      (hreturns (start + 1) (by omega)).trans (ih (start + 1) (by omega))
    rw [callBody_sliceCollect hlen, if_neg (by omega), hlooks.lookup start hlt, hrest,
      List.drop_eq_getElem_cons hlt]
    rfl

theorem postsHold_sliceSnap (hmodels : I.Models (sliceDomain predicateName elemTyp)) :
    PostsHold calls (snapFunction predicateName
      [readEqLookup predicateName elemTyp "self"
        (sliceLenCall predicateName (argRefExpr predicateName)),
        .inhaleExhale (Expr.eqCmp (sliceLenCall predicateName (argRefExpr predicateName))
          ((sliceLenFunc predicateName).apply
            [Expr.ofLocal ⟨"__result", .snapshot predicateName⟩]))
          (Expr.ofBool true) Position.default]
      (sliceSnapBody predicateName elemTyp)) [.ref x] := by
  have hcollect := callBody_sliceCollect_eq hlooks hlen hreturns 0
  rw [← hreturns _ (by omega), List.drop_zero] at hcollect
  refine ⟨I.func (seqConsFunc predicateName elemTyp) [.seq elems],
    Interp.value_apply (Interp.values_singleton
      ((value_sliceCollectCall "self" rfl (Interp.value_ofInt 0)).trans hcollect)), ?_⟩
  intro post hpost
  simp only [snapFunction, List.mem_cons, List.not_mem_nil, or_false] at hpost
  rcases hpost with rfl | rfl
  · exact value_readEqLookup hlooks (hmodels.holds _ (.tail _ (.head _))) rfl rfl
      fun _ => (value_sliceLenCall rfl).trans hlen
  · -- the length of the snapshot
    have hlenOfSeq := holds_lenOfSeq_iff.mp (hmodels.holds _ (.tail _ (.tail _ (.head _))))
      elems hlooks.hasSort
    have hsnapLen : I.value calls [("__result",
        I.func (seqConsFunc predicateName elemTyp) [.seq elems]), ("self", .ref x)]
        ((sliceLenFunc predicateName).apply
          [Expr.ofLocal ⟨"__result", .snapshot predicateName⟩]) =
          some (.int elems.length) := by
      rw [Interp.value_apply (Interp.values_singleton rfl), hlenOfSeq]
    refine (value_binOp ((value_sliceLenCall rfl).trans hlen) hsnapLen).trans ?_
    simp [Interp.binOpValue]

open Classical in
/-- What the elements from an index on are, under the bounds of the quantifier. -/
theorem postsHold_sliceCollect {start : Int} (hstart : 0 ≤ start) :
    PostsHold calls (sliceCollectFunc predicateName elemTyp) [.ref x, .int start] := by
  obtain ⟨start, rfl⟩ := Int.eq_ofNat_of_zero_le hstart
  refine ⟨_, callBody_sliceCollect_eq hlooks hlen hreturns start, ?_⟩
  let vars : I.Env := [("__result", .seq (elems.drop start)), ("self", .ref x),
    ("start", .int start)]
  let result := Expr.ofLocal ⟨"__result", .seq elemTyp⟩
  have hresult : I.value calls vars result = some (.seq (elems.drop start)) := rfl
  have hstartVal : I.value calls vars (Expr.ofLocal ⟨"start", .int⟩) = some (.int start) := rfl
  have hlenVal : I.value calls vars (sliceLenCall predicateName (argRefExpr predicateName)) =
      some (.int elems.length) := (value_sliceLenCall rfl).trans hlen
  have hguard : I.value calls vars (Expr.ltCmp (Expr.ofLocal ⟨"start", .int⟩)
      (sliceLenCall predicateName (argRefExpr predicateName))) =
        some (.bool (decide ((start : Int) < elems.length))) := value_ltCmp hstartVal hlenVal
  intro post hpost
  simp only [sliceCollectFunc, List.mem_cons, List.not_mem_nil, or_false] at hpost
  rcases hpost with rfl | rfl | rfl | rfl
  · -- nothing is left
    refine value_implies (value_geCmp hstartVal hlenVal)
      (Interp.value_eqCmp hresult (by rw [Interp.value, Interp.values]; rfl)) fun hge => ?_
    rw [decide_eq_true_iff] at hge ⊢
    rw [List.drop_eq_nil_of_le (by omega)]
  · -- the number of the elements
    refine value_implies hguard (Interp.value_eqCmp (value_seqLen hresult)
      (value_sub hlenVal hstartVal)) fun hlt => ?_
    rw [decide_eq_true_iff] at hlt ⊢
    rw [List.length_drop]
    congr 1
    omega
  · -- the first element
    obtain ⟨elem, helem⟩ := hlooks.total start
    refine value_implies hguard (Interp.value_eqCmp (value_seqIndex hresult (Interp.value_ofInt 0))
      ((value_lookupPureCall (value_argRefExpr rfl) hstartVal).trans helem)) fun hlt => ?_
    rw [decide_eq_true_iff] at hlt ⊢
    have hlt : start < elems.length := by omega
    rw [hlooks.lookup start hlt, Option.some.injEq] at helem
    rw [← helem]
    exact indexed_eq le_rfl (by simp [hlt])
  · -- all elements
    choose lookedUp hlookedUp using hlooks.total
    refine value_implies hguard (value_forall_shifted _ (fun _ _ => rfl)
      (fun _ _ => (value_sliceLenCall rfl).trans hlen)
      (fun _ _ => value_sub ((value_sliceLenCall rfl).trans hlen) rfl)
      (fun i _ => (value_lookupPureCall (value_argRefExpr rfl) rfl).trans (hlookedUp i))
      (fun _ _ => value_seqIndex rfl rfl) fun j hj hlt => ?_) fun _ => rfl
    obtain ⟨j, rfl⟩ := Int.eq_ofNat_of_zero_le hj
    have hlt : j + start < elems.length := by omega
    have heq := hlookedUp (j + start : Nat)
    rw [hlooks.lookup (j + start) hlt, Option.some.injEq, Nat.cast_add] at heq
    rw [← heq]
    refine (indexed_eq hj ?_).symm
    rw [Int.toNat_natCast, List.getElem?_drop, Nat.add_comm start j, List.getElem?_eq_getElem hlt]

end Slices

end Posts

section Slicing

variable {I : Interp} {calls : I.Calls} {selfTyp elemTyp : Typ} {read : DomainFunc} {baseLen : Expr}
variable {base : Value I.E}

/-- The elements of a snapshot between two indices. -/
def readRange (I : Interp) (read : DomainFunc) (base : Value I.E) (lo hi : Int) :
    List (Value I.E) :=
  (List.range (hi - lo).toNat).map fun idx : Nat => I.func read [base, .int (lo + idx)]

theorem readRange_of_le {lo hi : Int} (h : hi ≤ lo) : readRange I read base lo hi = [] := by
  rw [readRange, Int.toNat_of_nonpos (by omega)]
  rfl

theorem readRange_of_lt {lo hi : Int} (h : lo < hi) :
    readRange I read base lo hi =
      I.func read [base, .int lo] :: readRange I read base (lo + 1) hi := by
  have hsucc : (hi - lo).toNat = (hi - (lo + 1)).toNat + 1 := by omega
  rw [readRange, hsucc, List.range_succ_eq_map, List.map_cons, List.map_map, readRange]
  simp only [Nat.cast_zero, Int.add_zero, List.cons.injEq, true_and]
  refine List.map_congr_left fun idx _ => ?_
  rw [Function.comp_apply, Nat.cast_succ, Int.add_comm (idx : Int) 1, Int.add_assoc]

theorem length_readRange {lo hi : Int} (h : lo ≤ hi) :
    ((readRange I read base lo hi).length : Int) = hi - lo := by
  rw [readRange, List.length_map, List.length_range]
  omega

theorem getElem?_readRange {lo hi j : Int} (hj : 0 ≤ j) (hlt : j < hi - lo) :
    (readRange I read base lo hi)[j.toNat]? = some (I.func read [base, .int (lo + j)]) := by
  rw [readRange, List.getElem?_map, List.getElem?_range (by omega), Option.map_some,
    Int.toNat_of_nonneg hj]

/-- One call of the slice helper. -/
theorem callBody_sliceHelper (lo hi : Int) :
    callBody I calls (encodeSliceHelper selfTyp elemTyp read baseLen)
        [base, .int lo, .int hi] =
      if hi ≤ lo then some (.seq [])
      else (calls sliceHelperName [selfTyp, .int, .int]
        [base, .int (lo + 1), .int hi]).bind fun rest =>
          I.containerOpValue elemTyp .seqConcat (.seq [I.func read [base, .int lo]]) rest := by
  let vars : I.Env := [("self", base), ("lo", .int lo), ("hi", .int hi)]
  have hself : I.value calls vars (Expr.ofLocal ⟨"self", selfTyp⟩) = some base := rfl
  have hlo : I.value calls vars (Expr.ofLocal ⟨"lo", .int⟩) = some (.int lo) := rfl
  have hhi : I.value calls vars (Expr.ofLocal ⟨"hi", .int⟩) = some (.int hi) := rfl
  have hread : I.value calls vars (read.apply [Expr.ofLocal ⟨"self", selfTyp⟩,
      Expr.ofLocal ⟨"lo", .int⟩]) = some (I.func read [base, .int lo]) :=
    Interp.value_apply (by rw [Interp.values, hself, Interp.values_singleton hlo])
  change I.value calls vars (.cond (Expr.mkBinOp .geCmp (Expr.ofLocal ⟨"lo", .int⟩)
    (Expr.ofLocal ⟨"hi", .int⟩)) _ _ Position.default) = _
  rw [Interp.value, value_geCmp hlo hhi]
  by_cases hle : hi ≤ lo
  · simp [hle, Interp.value, Interp.values]
  · simp only [hle, decide_false, if_false]
    rw [Interp.value, Interp.value, Interp.values_singleton hread, Interp.value]
    simp only [Interp.values, hself, hhi, value_add hlo (Interp.value_ofInt 1), List.map_cons,
      List.map_nil]
    cases calls sliceHelperName [selfTyp, .int, .int] [base, .int (lo + 1), .int hi] with
    | none => rfl
    | some rest => rfl

/-- The elements between two indices, when the helper returns what its body yields for the
indices in between. -/
theorem callBody_sliceHelper_eq {lo hi : Int} (hle : lo ≤ hi)
    (hreturns : ∀ start : Int, lo ≤ start → start ≤ hi →
      ReturnsBody calls (encodeSliceHelper selfTyp elemTyp read baseLen)
        [base, .int start, .int hi]) :
    callBody I calls (encodeSliceHelper selfTyp elemTyp read baseLen)
        [base, .int lo, .int hi] = some (.seq (readRange I read base lo hi)) := by
  -- the induction is on the distance of the indices
  induction hleft : (hi - lo).toNat generalizing lo with
  | zero => rw [callBody_sliceHelper, if_pos (by omega), readRange_of_le (by omega)]
  | succ left ih =>
    have hrest : calls sliceHelperName [selfTyp, .int, .int] [base, .int (lo + 1), .int hi] =
        some (.seq (readRange I read base (lo + 1) hi)) :=
      (hreturns (lo + 1) (by omega) (by omega)).trans
        (ih (by omega) (fun start hstart => hreturns start (by omega)) (by omega))
    have hlt : lo < hi := by omega
    rw [callBody_sliceHelper, if_neg (by omega), hrest, readRange_of_lt hlt]
    rfl

end Slicing

/-- The arrays and the slices with elements of a type. -/
inductive IsSeqOf (elem : Ty) : Ty → Prop
  | array (length : Nat) : IsSeqOf elem (.array elem length)
  | slice : IsSeqOf elem (.slice elem)

section Sequences

variable (I : Interp) (env : TypeEnv) (calls : I.Calls)

/-- The number of the elements of a snapshot. -/
def SnapLength : Ty → Value I.E → Int → Prop
  | .array _ length, _, len => len = length
  | .slice elem, value, len => I.func (sliceLenFunc (env.predicateName (.slice elem))) [value] =
      .int len
  | _, _, _ => False

/-- The number of the elements of an instance. -/
def HeapLength : Ty → HeapValue → Nat → Prop
  | .array _ length, _, len => len = length
  | .slice elem, x, len =>
    calls "Slice$len" [.typedRef (env.predicateName (.slice elem))] [.ref x] = some (.int len)
  | _, _, _ => False

/-- The axioms of a snapshot. -/
def ModelsSnapshot (ty : Ty) : Prop :=
  ∀ snapshot domain, env.encodeSnapshotInternal ty = some snapshot →
    snapshot.domain? = some domain → I.Models domain

/-- The function that collects the elements of a slice returns what its body yields. -/
def CollectReturns (ty : Ty) (x : HeapValue) : Prop :=
  ∀ snapshot func, env.encodeSnapshotInternal ty = some snapshot →
    snapshot.sliceCollectFunc? = some func →
    ∀ start : Int, 0 ≤ start → ReturnsBody calls func [.ref x, .int start]

/-- The slice helper returns what its body yields, for indices that its preconditions
allow. -/
def HelperReturns (ty : Ty) : Prop :=
  ∀ func, env.sliceHelper ty = some func → ∀ base len,
    I.HasSort (.snapshot (env.predicateName ty)) base → SnapLength I env ty base len →
    ∀ lo hi : Int, 0 ≤ lo → lo ≤ hi → hi ≤ len → ReturnsBody calls func [base, .int lo, .int hi]

variable {I env calls} {elem ty : Ty}

/-- The postconditions of the functions that read an instance from the heap. -/
theorem postsHold_of_looksUp (hseq : IsSeqOf elem ty) (hmodels : ModelsSnapshot I env ty)
    {x : HeapValue} {elems : List (Value I.E)}
    (hlooks : LooksUp calls (env.predicateName ty) (env.encodeType elem) x elems)
    (hlen : HeapLength I env calls ty x elems.length) (hreturns : CollectReturns I env calls ty x)
    {snapshot : Snapshot} (hsnapshot : env.encodeSnapshotInternal ty = some snapshot) :
    (∀ func, snapshot.snapFunc? = some func → PostsHold calls func [.ref x]) ∧
      ∀ func, snapshot.sliceCollectFunc? = some func → ∀ start : Int, 0 ≤ start →
        PostsHold calls func [.ref x, .int start] := by
  cases hseq with
  | array length =>
    cases hsnapshot
    refine ⟨?_, fun func hfunc => by cases hfunc⟩
    rintro func ⟨⟩
    exact postsHold_arraySnap (hmodels _ _ rfl rfl) hlooks hlen
  | slice =>
    cases hsnapshot
    have hcollect := hreturns _ _ rfl rfl
    constructor
    · rintro func ⟨⟩
      exact postsHold_sliceSnap hlooks hlen hcollect (hmodels _ _ rfl rfl)
    · rintro func ⟨⟩ start hstart
      exact postsHold_sliceCollect hlooks hlen hcollect hstart

theorem IsSeqOf.strip (hseq : IsSeqOf elem ty) : stripRefsAndBoxes ty = ty := by
  cases hseq <;> rfl

/-- What the slice helper reads the elements by. -/
theorem exists_sliceHelper (env : TypeEnv) (hseq : IsSeqOf elem ty) : ∃ argName baseLen,
    env.sliceHelper ty = some (encodeSliceHelper (.snapshot (env.predicateName ty))
      (env.encodeType elem) (seqReadFunc (env.predicateName ty) (env.encodeType elem) argName)
      baseLen) ∧
    env.readFunc ty = some (seqReadFunc (env.predicateName ty) (env.encodeType elem) argName) := by
  cases hseq with
  | array length => exact ⟨_, _, rfl, rfl⟩
  | slice => exact ⟨_, _, rfl, rfl⟩

/-- An element of a snapshot is a snapshot. -/
theorem hasSort_read (hseq : IsSeqOf elem ty) (hmodels : ModelsSnapshot I env ty)
    {read : DomainFunc} (hread : env.readFunc ty = some read) {base : Value I.E}
    (hbase : I.HasSort (.snapshot (env.predicateName ty)) base) (index : Int) :
    I.HasSort (env.encodeType elem) (I.func read [base, .int index]) := by
  have hargs : List.Forall₂ I.HasSort [.snapshot (env.predicateName ty), .int]
      [base, .int index] := .cons hbase (.cons ⟨index, rfl⟩ .nil)
  cases hseq with
  | array length =>
    cases hread
    exact (hmodels _ _ rfl rfl).sorted _ (.tail _ (.head _)) _ ((Interp.hasSorts_iff _ _).mpr hargs)
  | slice =>
    cases hread
    exact (hmodels _ _ rfl rfl).sorted _ (.tail _ (.head _)) _ ((Interp.hasSorts_iff _ _).mpr hargs)

/-- The snapshot that slicing builds. -/
def sliceValue (I : Interp) (env : TypeEnv) (elem : Ty) (elems : List (Value I.E)) : Value I.E :=
  I.func (seqConsFunc (env.predicateName (.slice elem)) (env.encodeType elem)) [.seq elems]

section SliceValue

variable (hslice : ModelsSnapshot I env (.slice elem)) {elems : List (Value I.E)}
variable (helems : ∀ val ∈ elems, I.HasSort (env.encodeType elem) val)

include hslice helems

theorem hasSort_sliceValue :
    I.HasSort (.snapshot (env.predicateName (.slice elem))) (sliceValue I env elem elems) :=
  (hslice _ _ rfl rfl).sorted _ (.head _) _ (.cons ⟨elems, rfl, helems⟩ .nil)

theorem snapLength_sliceValue :
    SnapLength I env (.slice elem) (sliceValue I env elem elems) elems.length :=
  holds_lenOfSeq_iff.mp ((hslice _ _ rfl rfl).holds _ (.tail _ (.tail _ (.head _)))) elems
    ⟨elems, rfl, helems⟩

theorem read_sliceValue {read : DomainFunc} (hread : env.readFunc (.slice elem) = some read)
    (hindex : 0 ≤ index) {val : Value I.E} (hval : elems[index.toNat]? = some val) :
    I.func read [sliceValue I env elem elems, .int index] = val := by
  cases hread
  exact ((holds_seqReadAxiom_iff "self").mp ((hslice _ _ rfl rfl).holds _ (.tail _ (.head _)))
    elems ⟨elems, rfl, helems⟩ index).trans (indexed_eq hindex hval)

end SliceValue

section Requests

variable {calls : I.Calls} {vars : I.Env} {baseTy sliceTy : Ty} {base lo hi : Expr}
variable {baseVal : Value I.E} {loVal hiVal len : Int} {read : DomainFunc}

/-- The elements of a slice between two indices are snapshots of elements. -/
theorem hasSort_readRange (hseq : IsSeqOf elem ty) (hmodels : ModelsSnapshot I env ty)
    (hread : env.readFunc ty = some read)
    (hbase : I.HasSort (.snapshot (env.predicateName ty)) baseVal) :
    ∀ val ∈ readRange I read baseVal loVal hiVal, I.HasSort (env.encodeType elem) val := by
  intro val hval
  obtain ⟨idx, -, rfl⟩ := List.mem_map.mp hval
  exact hasSort_read hseq hmodels hread hbase _

/-- What the slice helper of an array or a slice returns. -/
theorem exists_helper_call (hseq : IsSeqOf elem ty) (hreturns : HelperReturns I env calls ty)
    (hread : env.readFunc ty = some read)
    (hsort : I.HasSort (.snapshot (env.predicateName ty)) baseVal)
    (hlen : SnapLength I env ty baseVal len) (hlower : 0 ≤ loVal) (hle : loVal ≤ hiVal)
    (hupper : hiVal ≤ len) :
    ∃ helper, env.sliceHelper ty = some helper ∧
      calls helper.name (helper.formalArgs.map (·.typ)) [baseVal, .int loVal, .int hiVal] =
        some (.seq (readRange I read baseVal loVal hiVal)) := by
  obtain ⟨argName, baseLen, hhelper, hread'⟩ := exists_sliceHelper env hseq
  rw [hread, Option.some.injEq] at hread'
  subst hread'
  have hbody := callBody_sliceHelper_eq hle fun start hstart hstop =>
    hreturns _ hhelper baseVal len hsort hlen start hiVal (by omega) hstop hupper
  rw [← hreturns _ hhelper baseVal len hsort hlen loVal hiVal hlower hle hupper] at hbody
  exact ⟨_, hhelper, hbody⟩

/-- What slicing an array or a slice yields. -/
theorem exists_encodeSlicing (hseq : IsSeqOf elem (stripRefsAndBoxes baseTy))
    (hslice : stripRefsAndBoxes sliceTy = .slice elem)
    (hreturns : HelperReturns I env calls (stripRefsAndBoxes baseTy))
    (hread : env.readFunc (stripRefsAndBoxes baseTy) = some read)
    (hbase : I.value calls vars base = some baseVal)
    (hlo : I.value calls vars lo = some (.int loVal))
    (hhi : I.value calls vars hi = some (.int hiVal))
    (hsort : I.HasSort (.snapshot (env.predicateName (stripRefsAndBoxes baseTy))) baseVal)
    (hlen : SnapLength I env (stripRefsAndBoxes baseTy) baseVal len)
    (hlower : 0 ≤ loVal) (hle : loVal ≤ hiVal) (hupper : hiVal ≤ len) :
    ∃ expr, env.encodeSlicing baseTy base sliceTy lo hi = some expr ∧
      I.value calls vars expr =
        some (sliceValue I env elem (readRange I read baseVal loVal hiVal)) := by
  obtain ⟨helper, hhelper, hcall⟩ :=
    exists_helper_call hseq hreturns hread hsort hlen hlower hle hupper
  have hhelper' : env.sliceHelper baseTy = some helper := by
    rw [← hhelper, TypeEnv.sliceHelper, TypeEnv.sliceHelper, hseq.strip]
  have hvalue : I.value calls vars (helper.apply [base, lo, hi]) =
      some (.seq (readRange I read baseVal loVal hiVal)) := by
    rw [Function.apply, Interp.value, Interp.values, hbase, Interp.values, hlo,
      Interp.values_singleton hhi]
    exact hcall
  refine ⟨_, ?_, Interp.value_apply (Interp.values_singleton hvalue)⟩
  rw [TypeEnv.encodeSlicing, hhelper', hslice]
  rfl

/-- What is read from a part of an array or a slice, and its length. -/
theorem sliceValue_readRange (hseq : IsSeqOf elem ty) (hmodels : ModelsSnapshot I env ty)
    (hslice : ModelsSnapshot I env (.slice elem)) (hread : env.readFunc ty = some read)
    (hsort : I.HasSort (.snapshot (env.predicateName ty)) baseVal) (hle : loVal ≤ hiVal) :
    SnapLength I env (.slice elem)
        (sliceValue I env elem (readRange I read baseVal loVal hiVal)) (hiVal - loVal) ∧
      ∀ readSlice, env.readFunc (.slice elem) = some readSlice → ∀ j : Int, 0 ≤ j →
        j < hiVal - loVal →
        I.func readSlice [sliceValue I env elem (readRange I read baseVal loVal hiVal), .int j] =
          I.func read [baseVal, .int (loVal + j)] := by
  have helems : ∀ val ∈ readRange I read baseVal loVal hiVal, _ :=
    hasSort_readRange hseq hmodels hread hsort
  constructor
  · rw [← length_readRange hle]
    exact snapLength_sliceValue hslice helems
  · intro readSlice hreadSlice j hj hlt
    exact read_sliceValue hslice helems hreadSlice hj (getElem?_readRange hj hlt)

/-- The elements of a part of a part are those of the base. -/
theorem readRange_readRange {base slice : Value I.E} {readSlice : DomainFunc}
    {lo hi lo' hi' : Int} (hlower : 0 ≤ lo') (hupper : hi' ≤ hi - lo)
    (h : ∀ j : Int, 0 ≤ j → j < hi - lo →
      I.func readSlice [slice, .int j] = I.func read [base, .int (lo + j)]) :
    readRange I readSlice slice lo' hi' = readRange I read base (lo + lo') (lo + hi') := by
  have hlength : (lo + hi' - (lo + lo')).toNat = (hi' - lo').toNat := by omega
  rw [readRange, readRange, hlength]
  refine List.map_congr_left fun idx hidx => ?_
  rw [List.mem_range] at hidx
  rw [h (lo' + idx) (by omega) (by omega), Int.add_assoc]

end Requests

/-- The postconditions of the functions that read an array or a slice from the heap follow
from their bodies, and slices have the elements between the two indices of their bases, so
that a slice of a slice is one of the base. -/
theorem seqSnapshots_spec {baseTy sliceTy : Ty} (hseq : IsSeqOf elem (stripRefsAndBoxes baseTy))
    (hslice : stripRefsAndBoxes sliceTy = .slice elem)
    (hmodels : ModelsSnapshot I env (stripRefsAndBoxes baseTy))
    (hmodelsSlice : ModelsSnapshot I env (.slice elem)) :
    (∀ snapshot x elems, env.encodeSnapshotInternal (stripRefsAndBoxes baseTy) = some snapshot →
      LooksUp calls (env.predicateName (stripRefsAndBoxes baseTy)) (env.encodeType elem) x elems →
      HeapLength I env calls (stripRefsAndBoxes baseTy) x elems.length →
      CollectReturns I env calls (stripRefsAndBoxes baseTy) x →
      (∀ func, snapshot.snapFunc? = some func → PostsHold calls func [.ref x]) ∧
        ∀ func, snapshot.sliceCollectFunc? = some func → ∀ start : Int, 0 ≤ start →
          PostsHold calls func [.ref x, .int start]) ∧
    (HelperReturns I env calls (stripRefsAndBoxes baseTy) →
      HelperReturns I env calls (.slice elem) →
      ∀ read readSlice, env.readFunc (stripRefsAndBoxes baseTy) = some read →
      env.readFunc (.slice elem) = some readSlice →
      ∀ (vars : I.Env) (base lo hi : Expr) (baseVal : Value I.E) (loVal hiVal len : Int),
      I.value calls vars base = some baseVal → I.value calls vars lo = some (.int loVal) →
      I.value calls vars hi = some (.int hiVal) →
      I.HasSort (.snapshot (env.predicateName (stripRefsAndBoxes baseTy))) baseVal →
      SnapLength I env (stripRefsAndBoxes baseTy) baseVal len →
      0 ≤ loVal → loVal ≤ hiVal → hiVal ≤ len →
      ∃ expr slice, env.encodeSlicing baseTy base sliceTy lo hi = some expr ∧
        I.value calls vars expr = some slice ∧
        SnapLength I env (.slice elem) slice (hiVal - loVal) ∧
        (∀ j : Int, 0 ≤ j → j < hiVal - loVal →
          I.func readSlice [slice, .int j] = I.func read [baseVal, .int (loVal + j)]) ∧
        ∀ (lo2 hi2 lo2' hi2' : Expr) (lo2Val hi2Val : Int),
          I.value calls vars lo2 = some (.int lo2Val) →
          I.value calls vars hi2 = some (.int hi2Val) →
          I.value calls vars lo2' = some (.int (loVal + lo2Val)) →
          I.value calls vars hi2' = some (.int (loVal + hi2Val)) →
          0 ≤ lo2Val → lo2Val ≤ hi2Val → hi2Val ≤ hiVal - loVal →
          ∃ exprOfSlice exprOfBase slice2,
            env.encodeSlicing sliceTy expr sliceTy lo2 hi2 = some exprOfSlice ∧
            env.encodeSlicing baseTy base sliceTy lo2' hi2' = some exprOfBase ∧
            I.value calls vars exprOfSlice = some slice2 ∧
            I.value calls vars exprOfBase = some slice2) := by
  refine ⟨fun snapshot x elems hsnapshot hlooks hlen hreturns =>
    postsHold_of_looksUp hseq hmodels hlooks hlen hreturns hsnapshot, ?_⟩
  intro hreturns hreturnsSlice read readSlice hread hreadSlice vars base lo hi baseVal loVal hiVal
    len hbase hlo hhi hsort hlen hlower hle hupper
  obtain ⟨expr, hexpr, hvalue⟩ := exists_encodeSlicing hseq hslice hreturns hread hbase hlo hhi
    hsort hlen hlower hle hupper
  obtain ⟨hlength, helems⟩ := sliceValue_readRange hseq hmodels hmodelsSlice hread hsort hle
  have helems := helems readSlice hreadSlice
  refine ⟨expr, _, hexpr, hvalue, hlength, helems, ?_⟩
  intro lo2 hi2 lo2' hi2' lo2Val hi2Val hlo2 hhi2 hlo2' hhi2' hlower2 hle2 hupper2
  have hsorted : ∀ val ∈ readRange I read baseVal loVal hiVal, _ :=
    hasSort_readRange hseq hmodels hread hsort
  have hsortSlice := hasSort_sliceValue hmodelsSlice hsorted
  -- the slice of the slice, and that of the base
  rw [← hslice] at hreturnsSlice hlength hsortSlice hreadSlice
  obtain ⟨exprOfSlice, hexpr2, hvalue2⟩ := exists_encodeSlicing (hslice ▸ .slice) hslice
    hreturnsSlice hreadSlice hvalue hlo2 hhi2 hsortSlice hlength hlower2 hle2 hupper2
  obtain ⟨exprOfBase, hexpr3, hvalue3⟩ := exists_encodeSlicing hseq hslice hreturns hread hbase
    hlo2' hhi2' hsort hlen (by omega) (by omega) (by omega)
  rw [readRange_readRange hlower2 hupper2 helems] at hvalue2
  exact ⟨exprOfSlice, exprOfBase, _, hexpr2, hexpr3, hvalue2, hvalue3⟩

namespace Witness

/-- The predicates of the arrays and of the slices of `i32`. -/
def seqEnv : TypeEnv where
  adtDef := fun _ => ⟨false, []⟩
  predicateName := fun ty =>
    match ty with
    | .array _ _ => "Array"
    | .slice _ => "Slice"
    | _ => "i32"

def arrayTy : Ty := .array (.int .i32) 3
def sliceTy : Ty := .slice (.int .i32)

noncomputable def seqInterp : Interp := Snap.interp seqEnv ∅

def seqElems : List (Value seqInterp.E) := [.int 5, .int 6, .int 7]

/-- An array or a slice of `5`, `6` and `7`. -/
def seqInstance : HeapValue := .list 0 [.int 1 5, .int 2 6, .int 3 7]

/-- The elements are looked up, counted and collected from an index on, and the slice helper
reads those between two indices. -/
noncomputable def seqCalls : seqInterp.Calls := fun name typs args =>
  if name = sliceHelperName then
    match args with
    | [base, .int lo, .int hi] =>
      let read := if typs.head? = some (.snapshot "Array") then seqReadFunc "Array" .int "arr"
        else seqReadFunc "Slice" .int "self"
      some (.seq (readRange seqInterp read base lo hi))
    | _ => none
  else if name = "lookup_pure" then
    match args with
    | [_, .int index] => some (.int (index + 5))
    | _ => none
  else
    match args with
    | [_] => some (.int 3)
    | [_, .int start] => some (.seq (seqElems.drop start.toNat))
    | _ => none

theorem modelsSnapshot_array : ModelsSnapshot seqInterp seqEnv arrayTy := by
  rintro snapshot domain ⟨⟩ ⟨⟩
  exact Snap.models_arrayDomain ⟨0, rfl⟩

theorem modelsSnapshot_slice : ModelsSnapshot seqInterp seqEnv sliceTy := by
  rintro snapshot domain ⟨⟩ ⟨⟩
  exact Snap.models_sliceDomain ⟨0, rfl⟩

theorem looksUp_seqInstance (predicateName : String) :
    LooksUp seqCalls predicateName .int seqInstance seqElems where
  sorted := by
    intro elem helem
    simp only [seqElems, List.mem_cons, List.not_mem_nil, or_false] at helem
    rcases helem with rfl | rfl | rfl <;> exact ⟨_, rfl⟩
  total := fun index => ⟨_, rfl⟩
  lookup := by
    intro index h
    have hlt : index < 3 := h
    have hindex : index = 0 ∨ index = 1 ∨ index = 2 := by omega
    rcases hindex with rfl | rfl | rfl <;> rfl

theorem collectReturns_slice : CollectReturns seqInterp seqEnv seqCalls sliceTy seqInstance := by
  rintro snapshot func ⟨⟩ ⟨⟩ start hstart
  have hlen : seqCalls "Slice$len" [.typedRef "Slice"] [.ref seqInstance] = some (.int 3) := rfl
  refine Eq.trans ?_ (callBody_sliceCollect hlen).symm
  by_cases hle : 3 ≤ start
  · have hdrop : seqElems.drop start.toNat = [] :=
      List.drop_eq_nil_of_le (Int.le_toNat hstart |>.mpr hle)
    rw [if_pos hle]
    exact congrArg (fun elems => some (Value.seq elems)) hdrop
  · have hstart : start = 0 ∨ start = 1 ∨ start = 2 := by omega
    rcases hstart with rfl | rfl | rfl <;> rfl

/-- The helper yields what its body does. -/
theorem returnsBody_seqCalls {selfTyp : Typ} {read : DomainFunc} (baseLen : Expr)
    (h : ∀ base lo hi, seqCalls sliceHelperName [selfTyp, .int, .int] [base, .int lo, .int hi] =
      some (.seq (readRange seqInterp read base lo hi))) (base : Value seqInterp.E) (lo hi : Int) :
    ReturnsBody seqCalls (encodeSliceHelper selfTyp .int read baseLen)
      [base, .int lo, .int hi] := by
  rw [ReturnsBody, callBody_sliceHelper, h]
  refine (h base lo hi).trans ?_
  split
  · next hle => rw [readRange_of_le hle]
  · next hlt =>
      rw [readRange_of_lt (by omega)]
      rfl

theorem helperReturns_array : HelperReturns seqInterp seqEnv seqCalls arrayTy := by
  rintro func ⟨⟩ base len - - lo hi - - -
  refine returnsBody_seqCalls _ (fun _ _ _ => ?_) base lo hi
  rw [seqCalls, if_pos rfl]
  exact congrArg (fun read => some (Value.seq (readRange seqInterp read _ _ _))) (if_pos rfl)

theorem helperReturns_slice : HelperReturns seqInterp seqEnv seqCalls sliceTy := by
  rintro func ⟨⟩ base len - - lo hi - - -
  refine returnsBody_seqCalls _ (fun _ _ _ => ?_) base lo hi
  rw [seqCalls, if_pos rfl]
  exact congrArg (fun read => some (Value.seq (readRange seqInterp read _ _ _)))
    (if_neg (by decide))

/-- The snapshot of the array. -/
noncomputable def arraySnap : Value seqInterp.E :=
  seqInterp.func (seqConsFunc "Array" .int) [.seq seqElems]

/-- The postconditions of the functions that read the instance hold, and the slice `[1..2]`
of the slice `[1..3]` of the array is its slice `[2..3]`. -/
theorem array_spec :
    (∀ func, (seqEnv.encodeSnapshotInternal arrayTy).bind Snapshot.snapFunc? = some func →
      PostsHold seqCalls func [.ref seqInstance]) ∧
    (∀ func, (seqEnv.encodeSnapshotInternal sliceTy).bind Snapshot.sliceCollectFunc? = some func →
      PostsHold seqCalls func [.ref seqInstance, .int 1]) ∧
    ∃ expr exprOfSlice exprOfBase slice slice2,
      seqEnv.encodeSlicing (.ref false arrayTy) (Expr.ofLocal ⟨"a", .snapshot "Array"⟩)
        (.ref false sliceTy) (Expr.ofInt 1) (Expr.ofInt 3) = some expr ∧
      seqInterp.value seqCalls [("a", arraySnap)] expr = some slice ∧
      seqInterp.func (seqReadFunc "Slice" .int "self") [slice, .int 1] =
        seqInterp.func (seqReadFunc "Array" .int "arr") [arraySnap, .int 2] ∧
      seqEnv.encodeSlicing (.ref false sliceTy) expr (.ref false sliceTy)
        (Expr.ofInt 1) (Expr.ofInt 2) = some exprOfSlice ∧
      seqEnv.encodeSlicing (.ref false arrayTy) (Expr.ofLocal ⟨"a", .snapshot "Array"⟩)
        (.ref false sliceTy) (Expr.ofInt 2) (Expr.ofInt 3) = some exprOfBase ∧
      seqInterp.value seqCalls [("a", arraySnap)] exprOfSlice = some slice2 ∧
      seqInterp.value seqCalls [("a", arraySnap)] exprOfBase = some slice2 := by
  obtain ⟨hposts, hslices⟩ := @seqSnapshots_spec seqInterp seqEnv seqCalls (.int .i32)
    (.ref false arrayTy) (.ref false sliceTy) (.array 3) rfl modelsSnapshot_array
    modelsSnapshot_slice
  have hpostsSlice := (@seqSnapshots_spec seqInterp seqEnv seqCalls (.int .i32) sliceTy sliceTy
    .slice rfl modelsSnapshot_slice modelsSnapshot_slice).1
  refine ⟨fun func hfunc => ?_, fun func hfunc => ?_, ?_⟩
  · exact (hposts _ _ _ rfl (looksUp_seqInstance _) rfl
      (fun _ _ h h' => by cases h; cases h')).1 func hfunc
  · exact (hpostsSlice _ _ _ rfl (looksUp_seqInstance _) rfl collectReturns_slice).2 func hfunc 1
      (by decide)
  · have hsort : seqInterp.HasSort (.snapshot "Array") arraySnap :=
      (modelsSnapshot_array _ _ rfl rfl).sorted _ (.head _) _
        (.cons (looksUp_seqInstance "Array").hasSort .nil)
    obtain ⟨expr, slice, hexpr, hvalue, -, hread, hslice⟩ := hslices helperReturns_array
      helperReturns_slice _ _ rfl rfl [("a", arraySnap)] (Expr.ofLocal ⟨"a", .snapshot "Array"⟩)
      (Expr.ofInt 1) (Expr.ofInt 3) arraySnap 1 3 3 rfl (Interp.value_ofInt 1)
      (Interp.value_ofInt 3) hsort rfl (by decide) (by decide) (by decide)
    obtain ⟨exprOfSlice, exprOfBase, slice2, h⟩ := hslice (Expr.ofInt 1) (Expr.ofInt 2)
      (Expr.ofInt 2) (Expr.ofInt 3) 1 2 (Interp.value_ofInt 1) (Interp.value_ofInt 2)
      (Interp.value_ofInt 2) (Interp.value_ofInt 3) (by decide) (by decide) (by decide)
    exact ⟨expr, exprOfSlice, exprOfBase, slice, slice2, hexpr, hvalue,
      hread 1 (by decide) (by decide), h⟩

end Witness

end Sequences

end Prusti.Snapshots

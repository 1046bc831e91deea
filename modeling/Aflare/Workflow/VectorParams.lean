import Aflare.Workflow.Template

/-!
# Parameters in one batch

`EvaluateParamsVectorized` evaluates all templates of a parameter map over one shared buffer.
Texts and single expressions go to a slot of their own; longer templates are assembled in the
buffer, and their slot holds the place. The slots of up to sixteen parameters stand in an array on
the stack, which is cut to size before the number of parameters is looked at.
-/

namespace Workflow

open Go List Option

/-- `vecSlot`: a text, or where it stands in the buffer. -/
structure VecSlot where
  literal : Str
  start : ℕ
  stop : ℕ
  deriving DecidableEq, Inhabited

/-- What the loop over the keys has so far: the slots in the order of the keys, the shared buffer
and the first error. -/
structure VecBatch where
  slots : List VecSlot
  buf : Str
  firstErr : Option Str

def smallBatch : ℕ := 16

/-- The slice `a[:n]` of an array; `none` is Go's panic. -/
def sliceArray {α : Type} (a : List α) (n : ℕ) : Option (List α) :=
  if n ≤ a.length then some (a.take n) else none

/-- `sort.Strings`. -/
def sortStrings (keys : List Str) : List Str := keys.mergeSort fun a b => (compare a b).isLE

def slotText (buf : Str) (slot : VecSlot) : Str :=
  if slot.literal ≠ [] then slot.literal else (buf.take slot.stop).drop slot.start

variable {params : GoMap Str Str}

namespace ExpressionEngine

variable (w : World) (e : ExpressionEngine)

/-- `evaluateInto`: the buffer and the first error. -/
def evaluateInto (tmpl : CompiledTemplate) (input : Str) (buf : Str) : Str × Option Str :=
  if !tmpl.hasExpr then (buf ++ tmpl.literal, none)
  else tmpl.instrs.foldl (e.evaluateInstr w input) (buf, none)

/-- The slot, the buffer and the error of one template. -/
def vecSlotOf (input buf : Str) (tmpl : CompiledTemplate) : VecSlot × Str × Option Str :=
  if !tmpl.hasExpr then (⟨tmpl.literal, 0, 0⟩, buf, none)
  else
    match tmpl.instrs with
    | [ins] =>
      match e.resolveInstr w input ins with
      | .ok v => (⟨v, 0, 0⟩, buf, none)
      | .error err =>
        (⟨ins.fullMatch, 0, 0⟩, buf,
          if ins.known then
            some (str "expression '" ++ [123, 123] ++ ins.inner ++ [125, 125] ++ str "': " ++ err)
          else none)
    | _ =>
      let (buf', paramErr) := e.evaluateInto w tmpl input buf
      (⟨[], buf.length, buf'.length⟩, buf', paramErr)

/-- One turn of the loop over the keys. The template comes out of the cache as it was compiled. -/
def vecStep (params : GoMap Str Str) (input : Str) (batch : VecBatch) (key : Str) : VecBatch :=
  let (slot, buf, paramErr) := e.vecSlotOf w input batch.buf (compileSource (params[key]?.getD []))
  { slots := batch.slots ++ [slot]
    buf := buf
    firstErr := batch.firstErr.or
      (paramErr.map fun err => str "param " ++ w.quote key ++ str ": " ++ err) }

def vecRun (params : GoMap Str Str) (input : Str) (keys : List Str) : VecBatch :=
  keys.foldl (e.vecStep w params input) ⟨[], [], none⟩

/-- `EvaluateParamsVectorized`: the map and the first error, `none` for a panic. A missing map has
length zero. -/
def evaluateParamsVectorized (params : StringMap)
    (input : Str) : Option (GoMap Str Str × Option Str) :=
  let params := params.getD ∅
  if params.size = 0 then some (∅, none)
  else
    let keys := sortStrings ((w.rangeParams params).map Prod.fst)
    -- the slice is taken before a longer one is made
    match sliceArray (List.replicate smallBatch (default : VecSlot)) params.size with
    | none => none
    | some _ =>
      let batch := e.vecRun w params input keys
      some (GoMap.assignAll ∅ ((keys.zip batch.slots).map fun p => (p.1, slotText batch.buf p.2)),
        batch.firstErr)

variable {w : World} {e : ExpressionEngine} {input : Str}

/-- The text of a template, with what cannot be resolved left in it. -/
def textOf (w : World) (e : ExpressionEngine) (input template : Str) : Str :=
  (parseTemplate template).flatMap (e.pieceOf w input)

/-- The error of a template. -/
def failureOf (w : World) (e : ExpressionEngine) (input template : Str) : Option Str :=
  (parseTemplate template).findSome? (e.errorOf w input)

theorem isOk_evaluate_iff {template : Str} :
    (e.evaluate w template input).isOk = true ↔ e.failureOf w input template = none := by
  unfold evaluate failureOf
  cases (parseTemplate template).findSome? (e.errorOf w input) <;>
    simp [Except.isOk, Except.toBool]

theorem valueOf_eq_textOf {template : Str} (h : e.failureOf w input template = none) :
    e.valueOf w input template = e.textOf w input template := by
  unfold failureOf at h
  simp [valueOf, evaluate, h, Except.toOption, textOf]

variable (w e input) in
/-- A template adds to the buffer, and its slot gives its text in every longer buffer. -/
theorem vecSlotOf_spec (buf template : Str) :
    ∃ slot added, e.vecSlotOf w input buf (compileSource template) =
        (slot, buf ++ added, e.failureOf w input template) ∧
      ∀ more, slotText (buf ++ added ++ more) slot = e.textOf w input template := by
  -- a text that is kept in the slot itself, also when it is empty
  have hkept (text buf : Str) : slotText buf ⟨text, 0, 0⟩ = text := by
    by_cases htext : text = [] <;> simp [slotText, htext]
  rcases compileSource_cases template with ⟨hsource, hall⟩ | hsource
  · obtain ⟨htext, herror⟩ := flatMap_pieceOf_of_literals w e input hall
    refine ⟨⟨template, 0, 0⟩, [], ?_, fun more => ?_⟩
    · simp [vecSlotOf, hsource, failureOf, herror]
    · rw [hkept, textOf, htext]
  · by_cases hsingle : ∃ ins, parseTemplate template = [ins]
    · obtain ⟨ins, hins⟩ := hsingle
      refine ⟨⟨e.pieceOf w input ins, 0, 0⟩, [], ?_, fun more => ?_⟩
      · simp only [vecSlotOf, hsource, hins, failureOf, pieceOf, errorOf, append_nil,
          findSome?_cons, findSome?_nil]
        cases hres : e.resolveInstr w input ins with
        | ok v => simp
        | error err => cases ins.known <;> simp
      · rw [hkept, textOf, hins]
        simp
    · refine ⟨⟨[], buf.length, (buf ++ e.textOf w input template).length⟩,
        e.textOf w input template, ?_, fun more => ?_⟩
      · have hinto : e.evaluateInto w ⟨[], true, parseTemplate template⟩ input buf =
            (buf ++ e.textOf w input template, e.failureOf w input template) := by
          simp only [evaluateInto, Bool.not_true, Bool.false_eq_true, if_false]
          rw [foldl_collect evaluateInstr_eq]
          simp [textOf, failureOf]
        simp only [vecSlotOf, hsource, Bool.not_true, Bool.false_eq_true, if_false]
        split
        · rename_i ins hins
          exact absurd ⟨ins, hins⟩ hsingle
        · rw [hinto]
      · simp only [slotText, ne_eq, not_true_eq_false, if_false]
        rw [take_left, drop_left]

/-- What the loop has after its keys: a slot for each key that gives the text of its template, also
after the buffer has grown, and the first error. -/
structure Collects (w : World) (e : ExpressionEngine) (params : GoMap Str Str)
    (input : Str) (keys : List Str) (batch : VecBatch) : Prop where
  texts : ∀ more, batch.slots.map (slotText (batch.buf ++ more)) =
    keys.map fun key => e.textOf w input (params[key]?.getD [])
  firstErr : batch.firstErr = keys.findSome? fun key =>
    (e.failureOf w input (params[key]?.getD [])).map fun err =>
      str "param " ++ w.quote key ++ str ": " ++ err

theorem Collects.vecStep {keys : List Str}
    {batch : VecBatch} (h : Collects w e params input keys batch) (key : Str) :
    Collects w e params input (keys ++ [key]) (e.vecStep w params input batch key) := by
  obtain ⟨slot, added, hslot, htext⟩ := vecSlotOf_spec w e input batch.buf (params[key]?.getD [])
  have hstep : e.vecStep w params input batch key =
      { slots := batch.slots ++ [slot]
        buf := batch.buf ++ added
        firstErr := batch.firstErr.or ((e.failureOf w input (params[key]?.getD [])).map fun err =>
          str "param " ++ w.quote key ++ str ": " ++ err) } := by
    simp only [ExpressionEngine.vecStep, hslot]
  rw [hstep]
  constructor
  · intro more
    have hold := h.texts (added ++ more)
    rw [← append_assoc] at hold
    simp only [map_append, map_cons, map_nil, hold, htext]
  · rw [h.firstErr, findSome?_append, findSome?_cons, findSome?_nil]
    cases (e.failureOf w input (params[key]?.getD [])) <;> rfl

variable (w e input) in
theorem collects_vecRun (params : GoMap Str Str) (keys : List Str) :
    Collects w e params input keys (e.vecRun w params input keys) := by
  induction keys using List.reverseRecOn with
  | nil => exact ⟨fun _ => rfl, rfl⟩
  | append_singleton keys key ih =>
    rw [vecRun, foldl_append]
    exact ih.vecStep key

private theorem zip_map_snd {α β γ : Type} (f : β → γ) (g : α → γ) {as : List α} {bs : List β}
    (h : bs.map f = as.map g) :
    (as.zip bs).map (fun p => (p.1, f p.2)) = as.map fun a => (a, g a) := by
  induction as generalizing bs with
  | nil => simp
  | cons a as ih =>
    cases bs with
    | nil => simp at h
    | cons b bs =>
      simp only [map_cons, List.cons.injEq] at h
      simp [h.1, ih h.2]

/-- The batch of a map that fits the array: every template is replaced by its text. -/
theorem evaluateParamsVectorized_eq (hsize : params.size ≤ smallBatch)
    (hok : ∀ entry ∈ params.toList, e.failureOf w input entry.2 = none) :
    e.evaluateParamsVectorized w (some params) input =
      some (params.map fun _ template => e.textOf w input template, none) := by
  have hperm := w.rangeParams_perm params
  have hkeys : (sortStrings ((w.rangeParams params).map Prod.fst)).Perm
      (params.toList.map Prod.fst) := (mergeSort_perm _ _).trans (hperm.map _)
  have hlookup : ∀ entry ∈ params.toList, params[entry.1]? = some entry.2 := by
    rintro ⟨k, template⟩ hentry
    exact Std.ExtTreeMap.mem_toList_iff_getElem?_eq_some.mp hentry
  by_cases hempty : params.size = 0
  · obtain rfl : params = ∅ := by
      apply Std.ExtTreeMap.eq_empty_iff_size_eq_zero.mpr hempty
    simp [evaluateParamsVectorized]
  have hslice : sliceArray (List.replicate smallBatch (default : VecSlot)) params.size =
      some ((List.replicate smallBatch default).take params.size) := by
    rw [sliceArray, if_pos]
    simpa using hsize
  have hbatch := collects_vecRun w e input params
    (sortStrings ((w.rangeParams params).map Prod.fst))
  have hentries : ((sortStrings ((w.rangeParams params).map Prod.fst)).map fun key =>
      (key, e.textOf w input (params[key]?.getD []))).Perm
        (params.map fun _ template => e.textOf w input template).toList := by
    have hmap : (params.toList.map Prod.fst).map (fun key =>
        (key, e.textOf w input (params[key]?.getD []))) =
          params.toList.map fun entry => (entry.1, e.textOf w input entry.2) := by
      rw [List.map_map]
      apply map_congr_left
      intro entry hentry
      simp [hlookup entry hentry]
    rw [Std.ExtTreeMap.toList_map, ← hmap]
    exact hkeys.map _
  have herr : (e.vecRun w params input
      (sortStrings ((w.rangeParams params).map Prod.fst))).firstErr = none := by
    rw [hbatch.firstErr, findSome?_eq_none_iff]
    intro key hkey
    obtain ⟨entry, hentry, rfl⟩ := mem_map.mp (hkeys.mem_iff.mp hkey)
    simp [hlookup entry hentry, hok entry hentry]
  have htexts := hbatch.texts []
  rw [append_nil] at htexts
  simp only [evaluateParamsVectorized, getD_some, hempty, if_false, hslice, herr,
    zip_map_snd _ _ htexts, GoMap.assignAll_eq_union hentries, GoMap.empty_union]

theorem evaluateParamsVectorized_eq_none (hsize : smallBatch < params.size) :
    e.evaluateParamsVectorized w (some params) input = none := by
  have hslice : sliceArray (List.replicate smallBatch (default : VecSlot)) params.size = none := by
    rw [sliceArray, if_neg]
    simpa using hsize
  have hempty : params.size ≠ 0 := by omega
  simp only [evaluateParamsVectorized, getD_some, hempty, if_false, hslice]

/-- For templates that evaluate without error, the batch returns the map of `EvaluateParams`
exactly if the map has at most sixteen entries; a missing map counts as an empty one. -/
theorem vectorized_eq_iff (w : World) (e : ExpressionEngine) (params : StringMap) (input : Str)
    (hok : ∀ entry ∈ (params.getD ∅).toList, (e.evaluate w entry.2 input).isOk = true) :
    (∃ result, e.evaluateParams w params input = .ok result ∧
        e.evaluateParamsVectorized w params input = some (result.getD ∅, none)) ↔
      (params.getD ∅).size ≤ smallBatch := by
  cases params with
  | none => simp [evaluateParams, evaluateParamsVectorized]
  | some params =>
    simp only [getD_some] at hok ⊢
    constructor
    · rintro ⟨result, -, hresult⟩
      by_contra hsize
      rw [evaluateParamsVectorized_eq_none (Nat.not_le.mp hsize)] at hresult
      cases hresult
    · intro hsize
      have hfail : ∀ entry ∈ params.toList, e.failureOf w input entry.2 = none :=
        fun entry hentry => isOk_evaluate_iff.mp (hok entry hentry)
      have hvalues : (params.map fun _ template => e.valueOf w input template) =
          params.map fun _ template => e.textOf w input template := by
        apply Std.ExtTreeMap.ext_getElem?
        intro key
        rw [Std.ExtTreeMap.getElem?_map, Std.ExtTreeMap.getElem?_map]
        cases hkey : params[key]? with
        | none => rfl
        | some template =>
          have hentry := Std.ExtTreeMap.mem_toList_iff_getElem?_eq_some.mpr hkey
          rw [map_some, map_some, valueOf_eq_textOf (hfail _ hentry)]
      have hscalar : (e.evaluateParams w (some params) input).toOption =
          some (some (params.map fun _ template => e.valueOf w input template)) := by
        rw [toOption_evaluateParams, if_pos hok]
      refine ⟨some (params.map fun _ template => e.textOf w input template), ?_, ?_⟩
      · rw [← hvalues]
        cases hr : e.evaluateParams w (some params) input with
        | error err => simp [hr, Except.toOption] at hscalar
        | ok result =>
          simp only [hr, Except.toOption, Option.some.injEq] at hscalar
          rw [hscalar]
      · exact evaluateParamsVectorized_eq hsize hfail

/-- Parameters with the given keys, all with the template `\x7b\x7binput\x7d\x7d`. -/
def inputParams (keys : List ℤ) : GoMap Str Str :=
  GoMap.assignAll ∅ (keys.map fun i => (itoa i, [123, 123] ++ str "input" ++ [125, 125]))

theorem vectorized_eq_two :
    ∃ result, newExpressionEngine.evaluateParams echoWorld (some (inputParams [1, 2])) (str "x") =
        .ok result ∧
      newExpressionEngine.evaluateParamsVectorized echoWorld (some (inputParams [1, 2])) (str "x") =
        some (result.getD ∅, none) :=
  (vectorized_eq_iff _ _ _ _ (by decide)).mpr (by decide)

/-- Seventeen parameters, none of which is an error, make the batch panic. -/
theorem vectorized_panics_seventeen :
    let params := inputParams ((List.range 17).map Int.ofNat)
    (newExpressionEngine.evaluateParams echoWorld (some params) (str "x")).isOk = true ∧
      newExpressionEngine.evaluateParamsVectorized echoWorld (some params) (str "x") = none := by
  decide

end ExpressionEngine

end Workflow

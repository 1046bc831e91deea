import Aflare.Go.Encoding

/-!
# Records of the write-ahead log

A record is either a full snapshot of the state after a step or a delta against the record before
it. This module has the record type and its JSON form.
-/

namespace Workflow

open Go List Option

/-- A single append-only entry in the write-ahead log. -/
structure WALRecord where
  seq : ℤ
  stepIndex : ℤ
  stepName : Str
  nodeName : Str
  data : Str
  /-- All step outputs of a snapshot, the changed ones of a delta; `none` is a nil map. -/
  stepOutputs : Option (GoMap ℤ Str)
  /-- All variables of a snapshot, the changed ones of a delta; `none` is a nil map. -/
  vars : StringMap
  timestamp : Time
  isDelta : Bool
  deriving DecidableEq

namespace WALRecord

def zero : WALRecord where
  seq := 0
  stepIndex := 0
  stepName := []
  nodeName := []
  data := []
  stepOutputs := none
  vars := none
  timestamp := Time.zero
  isDelta := false

variable (r : WALRecord)

/-- The members of the JSON object of a record; `is_delta` is left out when it is false. -/
def members : List (Str × Value) :=
  [(str "seq", .num (itoa r.seq)),
    (str "step_index", .num (itoa r.stepIndex)),
    (str "step_name", .str r.stepName),
    (str "node_name", .str r.nodeName),
    (str "data", .str r.data),
    (str "step_outputs", intMapJson r.stepOutputs),
    (str "variables", stringMapJson r.vars),
    (str "timestamp", .str r.timestamp.text)] ++
  if r.isDelta then [(str "is_delta", .bool true)] else []

def fields : List (StructField WALRecord) :=
  [.of (str "seq") seq (fun r x => { r with seq := x }) decodeInt,
    .of (str "step_index") stepIndex (fun r x => { r with stepIndex := x }) decodeInt,
    .of (str "step_name") stepName (fun r x => { r with stepName := x }) decodeString,
    .of (str "node_name") nodeName (fun r x => { r with nodeName := x }) decodeString,
    .of (str "data") data (fun r x => { r with data := x }) decodeString,
    .of (str "step_outputs") stepOutputs (fun r x => { r with stepOutputs := x })
      (decodeMap signedNat),
    .of (str "variables") vars (fun r x => { r with vars := x }) (decodeMap some),
    .of (str "timestamp") timestamp (fun r x => { r with timestamp := x }) decodeTime,
    .of (str "is_delta") isDelta (fun r x => { r with isDelta := x }) decodeBool]

def marshal : Str := (Value.obj r.members).marshal

def unmarshal (bytes : Str) : Option WALRecord :=
  (Value.parse bytes).bind (decodeStruct fields zero)

/-- A record after a round trip through JSON: every text is coerced to valid UTF-8. -/
def clean : WALRecord :=
  { r with
    stepName := coerce r.stepName
    nodeName := coerce r.nodeName
    data := coerce r.data
    stepOutputs := r.stepOutputs.map cleanIntMap
    vars := r.vars.map cleanStringMap }

/-! ## Round trip -/

variable (r : WALRecord)

private theorem shallow_members : ∀ m ∈ r.members, m.2.Shallow := by
  simp only [members, forall_mem_append, forall_mem_cons]
  simp

theorem marshal_ne_nil : r.marshal ≠ [] :=
  Value.render_ne_nil .compact (Value.wellFormed_obj (shallow_members r)) 0

private theorem decode_members :
    decodeMembers fields zero (Value.coerceMembers r.members) = some r.clean := by
  have houts := decodeMap_intMapJson none r.stepOutputs rfl
  have hvars := decodeMap_stringMapJson none r.vars rfl
  rw [coerceMembers_eq_map, members, map_append]
  simp only [map_cons, map_nil, cons_append, nil_append]
  -- each member of the object fills its own field, in the order of the fields
  refine (decodeMembers_cons rfl (decodeInt_itoa 0 r.seq) _).trans ?_
  refine (decodeMembers_cons rfl (decodeInt_itoa 0 r.stepIndex) _).trans ?_
  iterate 3 refine (decodeMembers_cons rfl rfl _).trans ?_
  refine (decodeMembers_cons rfl houts _).trans ?_
  refine (decodeMembers_cons rfl hvars _).trans ?_
  refine (decodeMembers_cons rfl (decodeTime_coerce _ _) _).trans ?_
  by_cases hdelta : r.isDelta = true
  · simp only [hdelta, if_true, map_cons, map_nil]
    refine (decodeMembers_cons rfl rfl _).trans ?_
    simp [decodeMembers, clean, hdelta]
  · simp [decodeMembers, clean, hdelta, zero]

theorem unmarshal_marshal : unmarshal r.marshal = some r.clean := by
  rw [unmarshal, marshal, Value.marshal, Value.parse_render_obj .compact (shallow_members r),
    bind_some]
  exact decode_members r

/-! ## Clean records -/

/-- All texts of the record are valid UTF-8. -/
structure Clean (r : WALRecord) : Prop where
  stepName : ValidUtf8 r.stepName
  nodeName : ValidUtf8 r.nodeName
  data : ValidUtf8 r.data
  stepOutputs : ∀ m ∈ r.stepOutputs, CleanIntMap m
  vars : ∀ m ∈ r.vars, CleanStringMap m

theorem clean_clean : r.clean.Clean where
  stepName := validUtf8_coerce _
  nodeName := validUtf8_coerce _
  data := validUtf8_coerce _
  stepOutputs := by
    intro m hm
    obtain ⟨m', -, rfl⟩ := map_eq_some_iff.mp hm
    exact cleanIntMap_clean m'
  vars := by
    intro m hm
    obtain ⟨m', -, rfl⟩ := map_eq_some_iff.mp hm
    exact cleanStringMap_clean m'

variable {r : WALRecord}

theorem Clean.clean_eq (h : r.Clean) : r.clean = r := by
  have houts : r.stepOutputs.map cleanIntMap = r.stepOutputs := by
    cases hm : r.stepOutputs with
    | none => rfl
    | some m => rw [map_some, (h.stepOutputs m hm).cleanIntMap_eq]
  have hvars : r.vars.map cleanStringMap = r.vars := by
    cases hm : r.vars with
    | none => rfl
    | some m => rw [map_some, (h.vars m hm).cleanStringMap_eq]
  rw [clean, h.stepName.coerce_eq, h.nodeName.coerce_eq, h.data.coerce_eq, houts, hvars]

theorem Clean.unmarshal_marshal (h : r.Clean) : unmarshal r.marshal = some r := by
  rw [WALRecord.unmarshal_marshal, h.clean_eq]

end WALRecord

end Workflow

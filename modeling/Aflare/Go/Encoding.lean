import Aflare.Go.Json
import Aflare.Go.Maps

/-!
# JSON encoding of Go types

How `encoding/json` turns the field types of the program's records into values and back: integers,
strings, booleans, time stamps, `map[int]string` and `map[string]string`, and structs with their
name matching.
-/

namespace Go

open List Option

variable {s : Str}

theorem validUtf8_of_ascii (h : ∀ b ∈ s, b < 128) : ValidUtf8 s := by
  refine ⟨s.map fun b => [b], ?_, by simp [← flatMap_def]⟩
  intro r hr
  obtain ⟨b, hb, rfl⟩ := mem_map.mp hr
  simp [IsRune, runeWidth, h b hb]

theorem validUtf8_nil : ValidUtf8 [] := validUtf8_of_ascii (by simp)

theorem isDigit_lt {b : UInt8} (h : isDigit b = true) : b < 128 := by
  simp only [isDigit, Bool.and_eq_true, decide_eq_true_eq] at h
  exact UInt8.lt_of_le_of_lt h.2 (by decide)

variable (i : ℤ)

theorem validUtf8_itoa : ValidUtf8 (itoa i) := by
  apply validUtf8_of_ascii
  intro b hb
  rcases mem_itoa hb with rfl | hb
  · decide
  · exact isDigit_lt hb

@[simp] theorem coerce_itoa : coerce (itoa i) = itoa i := (validUtf8_itoa i).coerce_eq

/-! ## Time stamps -/

/-- A byte at a position of a layout, in which the letter `d` stands for a digit. -/
def fits (l b : UInt8) : Bool := if l = 100 then isDigit b else b = l

/-- What remains of a text after a layout. -/
def matchLayout : Str → Str → Option Str
  | [], s => some s
  | _ :: _, [] => none
  | l :: layout, b :: s => if fits l b then matchLayout layout s else none

def daysIn (year month : ℕ) : ℕ :=
  if month = 2 then
    if year % 4 = 0 ∧ (year % 100 ≠ 0 ∨ year % 400 = 0) then 29 else 28
  else if month = 4 ∨ month = 6 ∨ month = 9 ∨ month = 11 then 30
  else 31

/-- The zone of a time stamp: `Z` or an offset. -/
def isZone (s : Str) : Bool :=
  s = [90] ||
    ((matchLayout (str "+dd:dd") s = some [] || matchLayout (str "-dd:dd") s = some []) &&
      digitsValue ((s.drop 1).take 2) < 24 && digitsValue ((s.drop 4).take 2) < 60)

/-- The zone of a time stamp after an optional fraction of a second. -/
def isFractionZone : Str → Bool
  | [] => false
  | b :: s =>
    if b = 46 then s.takeWhile isDigit ≠ [] && isZone (s.dropWhile isDigit) else isZone (b :: s)

/-- An RFC 3339 time stamp. -/
def isTimestamp (s : Str) : Bool :=
  match matchLayout (str "dddd-dd-ddTdd:dd:dd") s with
  | none => false
  | some zone =>
    let field (at' len : ℕ) := digitsValue ((s.drop at').take len)
    1 ≤ field 5 2 && field 5 2 ≤ 12 && 1 ≤ field 8 2 && field 8 2 ≤ daysIn (field 0 4) (field 5 2)
      && field 11 2 < 24 && field 14 2 < 60 && field 17 2 < 60 && isFractionZone zone

/-- A `time.Time`, represented by its RFC 3339 text. -/
structure Time where
  text : Str
  valid : isTimestamp text = true
  deriving DecidableEq, Repr

def Time.zero : Time := ⟨str "0001-01-01T00:00:00Z", by decide⟩

instance : Inhabited Time := ⟨Time.zero⟩

def Time.isZero (t : Time) : Bool := t = Time.zero

private theorem fits_ascii {l b : UInt8} (hl : l < 128) (h : fits l b = true) : b < 128 := by
  unfold fits at h
  split at h
  · exact isDigit_lt h
  · obtain rfl : b = l := by simpa using h
    exact hl

private theorem ascii_of_matchLayout {layout rest : Str}
    (hlayout : layout.all (fun b => b < 128) = true)
    (h : matchLayout layout s = some rest) (hrest : ∀ b ∈ rest, b < 128) : ∀ b ∈ s, b < 128 := by
  induction layout generalizing s with
  | nil =>
    obtain rfl : s = rest := by simpa [matchLayout] using h
    exact hrest
  | cons l layout ih =>
    cases s with
    | nil => simp [matchLayout] at h
    | cons b s =>
      simp only [all_cons, Bool.and_eq_true, decide_eq_true_eq] at hlayout
      simp only [matchLayout] at h
      split at h
      · rename_i hb
        exact forall_mem_cons.mpr ⟨fits_ascii hlayout.1 hb, ih hlayout.2 h⟩
      · cases h

private theorem ascii_of_isZone (h : isZone s = true) : ∀ b ∈ s, b < 128 := by
  simp only [isZone, Bool.or_eq_true, Bool.and_eq_true, decide_eq_true_eq] at h
  rcases h with rfl | ⟨⟨h | h, -⟩, -⟩
  · simp
  · exact ascii_of_matchLayout (by decide) h (by simp)
  · exact ascii_of_matchLayout (by decide) h (by simp)

private theorem ascii_of_isFractionZone (h : isFractionZone s = true) : ∀ b ∈ s, b < 128 := by
  cases s with
  | nil => simp
  | cons b s =>
    simp only [isFractionZone] at h
    split at h
    · rename_i hb
      simp only [Bool.and_eq_true] at h
      refine forall_mem_cons.mpr ⟨hb ▸ by decide, ?_⟩
      rw [← takeWhile_append_dropWhile (p := isDigit) (l := s)]
      exact forall_mem_append.mpr
        ⟨fun c hc => isDigit_lt (mem_takeWhile_imp hc), ascii_of_isZone h.2⟩
    · exact ascii_of_isZone h

variable (t : Time)

theorem Time.ascii : ∀ b ∈ t.text, b < 128 := by
  have hvalid := t.valid
  simp only [isTimestamp] at hvalid
  split at hvalid
  · cases hvalid
  · rename_i zone hmatch
    simp only [Bool.and_eq_true] at hvalid
    exact ascii_of_matchLayout (by decide) hmatch (ascii_of_isFractionZone hvalid.2)

theorem Time.validUtf8 : ValidUtf8 t.text := validUtf8_of_ascii t.ascii

@[simp] theorem Time.coerce_text : coerce t.text = t.text := t.validUtf8.coerce_eq

/-! ## Scalars

A decoder takes the value that the destination holds, since `null` leaves it unchanged. -/

/-- Decode into an `int`. The program's integers are indices and counters of what it holds in
memory, so the range check of the decoder is not represented. -/
def decodeInt (cur : ℤ) : Value → Option ℤ
  | .null => some cur
  | .num lit => signedNat lit
  | _ => none

def decodeString (cur : Str) : Value → Option Str
  | .null => some cur
  | .str s => some s
  | _ => none

def decodeBool (cur : Bool) : Value → Option Bool
  | .null => some cur
  | .bool b => some b
  | _ => none

def decodeTime (cur : Time) : Value → Option Time
  | .null => some cur
  | .str s => if h : isTimestamp s = true then some ⟨s, h⟩ else none
  | _ => none

@[simp] theorem decodeInt_itoa (cur i : ℤ) : decodeInt cur (.num (itoa i)) = some i :=
  signedNat_itoa i

theorem decodeTime_coerce (cur t : Time) : decodeTime cur (Value.str t.text).coerce = some t := by
  simp [Value.coerce, decodeTime, t.valid]

/-! ## Maps -/

variable (m : GoMap ℤ Str)

/-- The members of a `map[int]string`: the keys as decimal texts, in the order of these texts. -/
def intMembers : List (Str × Value) :=
  (m.toList.insertionSort fun a b => (compare (itoa a.1) (itoa b.1)).isLE).map
    fun e => (itoa e.1, Value.str e.2)

/-- The members of a `map[string]string`, in the order of the keys. -/
def stringMembers (m : GoMap Str Str) : List (Str × Value) :=
  m.toList.map fun e => (e.1, Value.str e.2)

/-- A `map[int]string`; a nil map is `null`. -/
def intMapJson : Option (GoMap ℤ Str) → Value
  | none => .null
  | some m => .obj (intMembers m)

/-- Go's `map[string]string`, which may be nil. -/
abbrev StringMap := Option (GoMap Str Str)

/-- A `map[string]string`; a nil map is `null`. -/
def stringMapJson : StringMap → Value
  | none => .null
  | some m => .obj (stringMembers m)

section DecodeMap

variable {K : Type} [Ord K] [Std.TransOrd K]

/-- Decode the members of an object into the entries of a map with string values. -/
def decodeEntries (key : Str → Option K) :
    GoMap K Str → List (Str × Value) → Option (GoMap K Str)
  | m, [] => some m
  | m, member :: members => do
    let k ← key member.1
    let v ← decodeString [] member.2
    decodeEntries key (m.insert k v) members

/-- Decode into a map: `null` makes it nil, an object is added to what the map holds. -/
def decodeMap (key : Str → Option K) (cur : Option (GoMap K Str)) :
    Value → Option (Option (GoMap K Str))
  | .null => some none
  | .obj members => (decodeEntries key (cur.getD ∅) members).map some
  | _ => none

theorem decodeEntries_map (key : Str → Option K) (text : K → Str) (entries : List (K × Str))
    (hkey : ∀ e ∈ entries, key (text e.1) = some e.1) (m : GoMap K Str) :
    decodeEntries key m (entries.map fun e => (text e.1, Value.str e.2))
      = some (GoMap.assignAll m entries) := by
  induction entries generalizing m with
  | nil => rfl
  | cons e entries ih =>
    have he := hkey e mem_cons_self
    have hrest := ih (forall_mem_of_forall_mem_cons hkey) (m.insert e.1 e.2)
    simp [decodeEntries, he, decodeString, hrest]

end DecodeMap

/-- What a `map[int]string` is after a round trip. -/
def cleanIntMap : GoMap ℤ Str := m.map fun _ v => coerce v

/-- What a `map[string]string` is after a round trip: keys that differ only in stray bytes fall
together, and the last one in key order wins. -/
def cleanStringMap (m : GoMap Str Str) : GoMap Str Str :=
  GoMap.assignAll ∅ (m.toList.map fun e => (coerce e.1, coerce e.2))

theorem coerceMembers_eq_map (members : List (Str × Value)) :
    Value.coerceMembers members = members.map fun m => (coerce m.1, m.2.coerce) := by
  induction members with
  | nil => rfl
  | cons m members ih => simp [Value.coerceMembers, ih]

theorem coerceMembers_append (ms ns : List (Str × Value)) :
    Value.coerceMembers (ms ++ ns) = Value.coerceMembers ms ++ Value.coerceMembers ns := by
  simp only [coerceMembers_eq_map, map_append]

/-- A `map[int]string` round-trips up to the coercion of its values. -/
theorem decodeMap_intMapJson (cur : Option (GoMap ℤ Str)) (m : Option (GoMap ℤ Str))
    (hcur : cur.getD ∅ = ∅) :
    decodeMap signedNat cur (intMapJson m).coerce = some (m.map cleanIntMap) := by
  cases m with
  | none => rfl
  | some m =>
    -- the coerced members are the entries of the clean map, in another order
    let entries := (m.toList.insertionSort fun a b => (compare (itoa a.1) (itoa b.1)).isLE).map
      fun e => (e.1, coerce e.2)
    have hmembers : Value.coerceMembers (intMembers m)
        = entries.map fun e => (itoa e.1, Value.str e.2) := by
      simp [entries, coerceMembers_eq_map, intMembers, Function.comp_def, Value.coerce]
    have hperm : entries.Perm (cleanIntMap m).toList := by
      rw [cleanIntMap, Std.ExtTreeMap.toList_map]
      exact (perm_insertionSort _ _).map _
    simp only [intMapJson, Value.coerce, decodeMap, hcur, hmembers, map_some]
    rw [decodeEntries_map signedNat itoa entries fun e _ => signedNat_itoa e.1,
      GoMap.assignAll_eq_union hperm, GoMap.empty_union, map_some]

/-- A `map[string]string` round-trips up to the coercion of its keys and values. -/
theorem decodeMap_stringMapJson (cur : StringMap) (m : StringMap) (hcur : cur.getD ∅ = ∅) :
    decodeMap some cur (stringMapJson m).coerce = some (m.map cleanStringMap) := by
  cases m with
  | none => rfl
  | some m =>
    have hmembers : Value.coerceMembers (stringMembers m)
        = (m.toList.map fun e => (coerce e.1, coerce e.2)).map fun e => (e.1, Value.str e.2) := by
      simp [coerceMembers_eq_map, stringMembers, Function.comp_def, Value.coerce]
    have hdecode := decodeEntries_map some (fun k => k)
      (m.toList.map fun e => (coerce e.1, coerce e.2)) (fun _ _ => rfl) ∅
    simp only [stringMapJson, Value.coerce, decodeMap, hcur, hmembers, hdecode, map_some]
    rfl

/-! ## Clean maps -/

/-- The values of the map are valid UTF-8. -/
def CleanIntMap : Prop := m.Forall fun _ v => ValidUtf8 v

/-- The keys and the values of the map are valid UTF-8. -/
def CleanStringMap (m : GoMap Str Str) : Prop := m.Forall fun k v => ValidUtf8 k ∧ ValidUtf8 v

theorem cleanIntMap_clean : CleanIntMap (cleanIntMap m) := by
  intro k v hv
  simp only [cleanIntMap, Std.ExtTreeMap.getElem?_map, map_eq_some_iff] at hv
  obtain ⟨w, -, rfl⟩ := hv
  exact validUtf8_coerce w

theorem CleanIntMap.cleanIntMap_eq {m : GoMap ℤ Str} (h : CleanIntMap m) : cleanIntMap m = m := by
  apply Std.ExtTreeMap.ext_getElem?
  intro k
  rw [cleanIntMap, Std.ExtTreeMap.getElem?_map]
  cases hk : m[k]? with
  | none => rfl
  | some v => rw [map_some, (h k v hk).coerce_eq]

theorem cleanStringMap_clean (m : GoMap Str Str) : CleanStringMap (cleanStringMap m) := by
  refine GoMap.Forall.assignAll GoMap.Forall.empty ?_
  intro e he
  obtain ⟨e', -, rfl⟩ := mem_map.mp he
  exact ⟨validUtf8_coerce _, validUtf8_coerce _⟩

variable {m : GoMap Str Str}

theorem CleanStringMap.cleanStringMap_eq (h : CleanStringMap m) : cleanStringMap m = m := by
  have hmap : (m.toList.map fun e => (coerce e.1, coerce e.2)) = m.toList := by
    conv_rhs => rw [← map_id m.toList]
    apply map_congr_left
    intro e he
    obtain ⟨hkey, hvalue⟩ := h e.1 e.2 (Std.ExtTreeMap.mem_toList_iff_getElem?_eq_some.mp he)
    simp [hkey.coerce_eq, hvalue.coerce_eq]
  rw [cleanStringMap, hmap, GoMap.assignAll_toList_empty]

@[simp] theorem cleanIntMap_eq_empty_iff {m : GoMap ℤ Str} : cleanIntMap m = ∅ ↔ m = ∅ := by
  simp [cleanIntMap]

@[simp] theorem cleanStringMap_eq_empty_iff : cleanStringMap m = ∅ ↔ m = ∅ := by
  simp [cleanStringMap]

/-! ## The values of struct fields -/

/-- A well-formed value without nesting inside its members. -/
def Value.Shallow (v : Value) : Prop := v.WellFormed ∧ v.depth ≤ 1

@[simp] theorem Value.shallow_itoa : (Value.num (itoa i)).Shallow :=
  ⟨Value.wellFormed_num_itoa i, by simp [Value.depth]⟩

@[simp] theorem Value.shallow_str (s : Str) : (Value.str s).Shallow :=
  ⟨trivial, by simp [Value.depth]⟩

@[simp] theorem Value.shallow_bool (b : Bool) : (Value.bool b).Shallow :=
  ⟨trivial, by simp [Value.depth]⟩

variable {ms : List (Str × Value)}

private theorem shallow_obj_str {α : Type} (name text : α → Str) (entries : List α) :
    (Value.obj (entries.map fun e => (name e, .str (text e)))).Shallow := by
  refine ⟨Value.wellFormedMembers_iff.mpr ?_, Nat.succ_le_succ (Value.depthMembers_le_iff.mpr ?_)⟩
  · simp [Value.WellFormed]
  · simp [Value.depth]

@[simp] theorem shallow_intMapJson (m : Option (GoMap ℤ Str)) : (intMapJson m).Shallow := by
  cases m with
  | none => exact ⟨trivial, by simp [intMapJson, Value.depth]⟩
  | some m => exact shallow_obj_str _ _ _

@[simp] theorem shallow_stringMapJson (m : StringMap) : (stringMapJson m).Shallow := by
  cases m with
  | none => exact ⟨trivial, by simp [stringMapJson, Value.depth]⟩
  | some m => exact shallow_obj_str _ _ _

theorem Value.wellFormed_obj (h : ∀ m ∈ ms, m.2.Shallow) : (Value.obj ms).WellFormed :=
  Value.wellFormedMembers_iff.mpr fun m hm => (h m hm).1

theorem Value.parse_render_obj (layout : Layout) (h : ∀ m ∈ ms, m.2.Shallow) (level : ℕ) :
    Value.parse ((Value.obj ms).render layout level) = some (.obj (Value.coerceMembers ms)) := by
  have hdepth := Value.depthMembers_le_iff.mpr fun m hm => (h m hm).2
  rw [Value.parse_render layout (Value.wellFormed_obj h)]
  · rfl
  · simp only [Value.depth, Value.maxNestingDepth]
    omega

/-! ## Structs -/

/-- A name folded for comparison without regard to case: the ASCII letters, and the two other
letters that fold to one, the long s and the Kelvin sign. -/
def foldChunk : Chunk → Str
  | .bad _ => replacement
  | .rune r =>
    if r = [0xC5, 0xBF] then [83]
    else if r = [0xE2, 0x84, 0xAA] then [75]
    else r.map fun b => if 97 ≤ b ∧ b ≤ 122 then b - 32 else b

/-- `foldName` of `encoding/json`. -/
def foldName (s : Str) : Str := (chunks s).flatMap foldChunk

section DecodeStruct

variable {S : Type}

/-- A field of a struct: its JSON name and how a value is decoded into it. -/
structure StructField (S : Type) where
  name : Str
  decode : S → Value → Option S

/-- The field that is read by `get` and written by `set`. -/
def StructField.of {T : Type} (name : Str) (get : S → T) (set : S → T → S)
    (dec : T → Value → Option T) : StructField S :=
  ⟨name, fun s v => (dec (get s) v).map (set s)⟩

/-- The field a member goes to: the one with exactly this name, else the first one whose name
differs only in case. -/
def findField (fields : List (StructField S)) (name : Str) : Option (StructField S) :=
  (fields.find? fun f => f.name = name).or
    (fields.find? fun f => foldName f.name = foldName name)

/-- Decode one member into a struct; a member without a field is ignored. -/
def decodeMember (fields : List (StructField S)) (s : S) (member : Str × Value) : Option S :=
  match findField fields member.1 with
  | none => some s
  | some f => f.decode s member.2

def decodeMembers (fields : List (StructField S)) : S → List (Str × Value) → Option S
  | s, [] => some s
  | s, member :: members =>
    (decodeMember fields s member).bind fun s => decodeMembers fields s members

/-- `json.Unmarshal` of a value into a struct. -/
def decodeStruct (fields : List (StructField S)) (zero : S) : Value → Option S
  | .null => some zero
  | .obj members => decodeMembers fields zero members
  | _ => none

variable {fields : List (StructField S)} {s : S}

theorem decodeMembers_cons {T : Type} {member : Str × Value} {name : Str} {get : S → T}
    {set : S → T → S} {dec : T → Value → Option T} {x : T}
    (hfind : findField fields member.1 = some (.of name get set dec))
    (hdecode : dec (get s) member.2 = some x) (members : List (Str × Value)) :
    decodeMembers fields s (member :: members) = decodeMembers fields (set s x) members := by
  simp [decodeMembers, decodeMember, hfind, StructField.of, hdecode]

/-- The member of a string field that is left out when the string is empty. -/
def omitEmpty (name x : Str) : List (Str × Value) := if x = [] then [] else [(name, .str x)]

/-- A member that is left out where its field has the value already. -/
theorem decodeMembers_optional {T : Type} {c : Prop} [Decidable c] {name field : Str}
    {value : Value} {get : S → T} {set : S → T → S} {dec : T → Value → Option T} {x : T}
    (hfind : findField fields (coerce name) = some (.of field get set dec))
    (hkeep : c → set s x = s) (hdecode : ¬ c → dec (get s) value.coerce = some x)
    (members : List (Str × Value)) :
    decodeMembers fields s (Value.coerceMembers (if c then [] else [(name, value)]) ++ members) =
      decodeMembers fields (set s x) members := by
  split
  · next h => rw [hkeep h, Value.coerceMembers, nil_append]
  · next h => exact decodeMembers_cons hfind (hdecode h) members

variable {set : S → Str → S} {name field : Str} {get : S → Str}

/-- A string field that may be left out is read back coerced, if it is empty before. -/
theorem decodeMembers_omitEmpty
    (hfind : findField fields (coerce name) = some (.of field get set decodeString))
    (hempty : set s [] = s) (x : Str) (members : List (Str × Value)) :
    decodeMembers fields s (Value.coerceMembers (omitEmpty name x) ++ members) =
      decodeMembers fields (set s (coerce x)) members :=
  decodeMembers_optional hfind (fun hx => by rw [hx]; exact hempty) (fun _ => rfl) members

theorem decodeMembers_omitEmpty_last
    (hfind : findField fields (coerce name) = some (.of field get set decodeString))
    (hempty : set s [] = s) (x : Str) :
    decodeMembers fields s (Value.coerceMembers (omitEmpty name x)) = some (set s (coerce x)) := by
  rw [← append_nil (Value.coerceMembers _), decodeMembers_omitEmpty hfind hempty, decodeMembers]

end DecodeStruct

end Go

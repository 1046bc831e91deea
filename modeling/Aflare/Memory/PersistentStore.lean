import Aflare.Go.Encoding
import Aflare.Go.Lines

/-!
# The persistent memory

The entries of `PersistentMemoryStore` are kept in one file, a line of JSON for each. Every change
truncates the file and writes all lines again, so a crash can leave any beginning of them.

The tokens and vectors of the search are left out, and so is a store without a path, which has no
file.
-/

namespace Memory

open Go List

structure PersistentMemoryEntry where
  key : Str
  value : Str
  category : Str
  timestamp : Str
  accessCount : ℤ
  deriving DecidableEq

namespace PersistentMemoryEntry

def json (e : PersistentMemoryEntry) : Value :=
  .obj [(str "key", .str e.key), (str "value", .str e.value), (str "category", .str e.category),
    (str "timestamp", .str e.timestamp), (str "access_count", .num (itoa e.accessCount))]

def fields : List (StructField PersistentMemoryEntry) :=
  [.of (str "key") key (fun e x => { e with key := x }) decodeString,
    .of (str "value") value (fun e x => { e with value := x }) decodeString,
    .of (str "category") category (fun e x => { e with category := x }) decodeString,
    .of (str "timestamp") timestamp (fun e x => { e with timestamp := x }) decodeString,
    .of (str "access_count") accessCount (fun e x => { e with accessCount := x }) decodeInt]

/-- The entry of a line; blank lines and lines that do not decode are skipped. -/
def ofLine (line : Str) : Option PersistentMemoryEntry :=
  if trimSpace line = [] then none
  else (Value.parse (trimSpace line)).bind (decodeStruct fields ⟨[], [], [], [], 0⟩)

end PersistentMemoryEntry

/-- The `entries` of a store. -/
abbrev PersistentEntries := GoMap Str PersistentMemoryEntry

/-- `load`; a file that does not exist is read as an empty one. -/
def load (data : Str) : PersistentEntries :=
  GoMap.assignAll ∅ (((split data [10]).filterMap PersistentMemoryEntry.ofLine).map fun e =>
    (e.key, e))

/-- A call of `Store`, at a time, or of `Delete`. -/
inductive PersistentChange
  | store (key value category now : Str)
  | delete (key : Str)

namespace PersistentChange

def key : PersistentChange → Str
  | store key .. => key
  | delete key => key

/-- The entries that are to be saved; deleting a missing key is refused before. -/
def apply (entries : PersistentEntries) : PersistentChange → Option PersistentEntries
  | store key value category now =>
    let e := entries[key]?.getD ⟨key, [], [], [], 0⟩
    some (entries.insert key { e with value := value, category := category, timestamp := now })
  | delete key => if key ∈ entries then some (entries.erase key) else none

/-- What a crash inside `saveUnlocked` can leave of a file: before `os.Create` the file itself, and
after it a beginning of the lines, which come in the order of the `range` loop. -/
def CrashLeaves (data : Str) (c : PersistentChange) (left : Str) : Prop :=
  ∃ entries ∈ c.apply (load data), left = data ∨
    ∃ order, order ~ entries.toList ∧ left <+: lineFile (order.map (·.2.json.marshal))

/-- The entries other than the changed one are found again. -/
def Survives (data : Str) (c : PersistentChange) (left : Str) : Prop :=
  ∀ key ≠ c.key, ∀ e ∈ (load data)[key]?, (load left)[key]? = some e

variable {data : Str} {c : PersistentChange}

theorem load_nil : load [] = ∅ := rfl

/-- The file is empty between its truncation and the first line. -/
theorem crashLeaves_nil {entries : PersistentEntries} (h : c.apply (load data) = some entries) :
    c.CrashLeaves data [] :=
  ⟨entries, h, .inr ⟨entries.toList, .refl _, nil_prefix⟩⟩

theorem survives_nil_iff : c.Survives data [] ↔ ∀ key ∈ load data, key = c.key := by
  simp only [Survives, load_nil]
  refine forall_congr' fun key => ?_
  rw [Std.ExtTreeMap.mem_iff_isSome_getElem?, ← not_imp_comm]
  cases (load data)[key]? <;> simp

/-- A change survives every crash exactly if there is no other entry, or if it is refused. -/
theorem survives_iff (data : Str) (c : PersistentChange) :
    (∀ left, c.CrashLeaves data left → c.Survives data left) ↔
      (∀ key ∈ load data, key = c.key) ∨ ∃ key ∉ load data, c = .delete key := by
  constructor
  · intro h
    cases happly : c.apply (load data) with
    | some entries => exact .inl (survives_nil_iff.mp (h [] (crashLeaves_nil happly)))
    | none =>
      cases c with
      | store => cases happly
      | delete key => exact .inr ⟨key, fun hmem => by simp [apply, hmem] at happly, rfl⟩
  · rintro (hno | ⟨key, hmem, rfl⟩) left hleft
    · intro key hkey e he
      have hmem : key ∈ load data :=
        Std.ExtTreeMap.mem_iff_isSome_getElem?.mpr (Option.isSome_of_mem he)
      exact absurd (hno key hmem) hkey
    · obtain ⟨entries, happly, -⟩ := hleft
      simp [apply, hmem] at happly

/-- A crash while `b` is stored loses the entry of the line `{}`, whose key is empty. -/
theorem store_loses_other : ¬ ∀ data c left, CrashLeaves data c left → Survives data c left := by
  intro h
  have hshallow : ∀ m ∈ ([] : List (Str × Value)), m.2.Shallow := forall_mem_nil _
  have hparse : Value.parse [123, 125] = some (.obj []) :=
    Value.parse_render_obj .compact hshallow 0
  have hload : load [123, 125] = GoMap.assignAll ∅ [([], ⟨[], [], [], [], 0⟩)] := by
    have hline : PersistentMemoryEntry.ofLine [123, 125] = some ⟨[], [], [], [], 0⟩ := by
      have htrim : trimSpace [123, 125] = [123, 125] := by decide
      rw [PersistentMemoryEntry.ofLine, htrim, if_neg (by decide), hparse]
      rfl
    rw [load, split_of_notMem (by decide), filterMap_cons_some hline]
    rfl
  have hlost := h [123, 125] (.store (str "b") [] [] []) [] (crashLeaves_nil rfl)
  rw [survives_nil_iff, hload] at hlost
  exact absurd (hlost [] (by simp)) (by decide)

end PersistentChange

end Memory

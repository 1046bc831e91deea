import Aflare.Go.Maps
import Aflare.Go.Strings

/-!
# Session memories

A session keeps entries by key. Storing an entry at capacity first removes the expired entries and
then, if that was not enough, the entry that was used least recently. An entry that is found expired
is removed.

The graph, the vectors and the links to the knowledge graph are left out: none of the methods below
reads them. Times are in nanoseconds, and a call reads the clock once.
-/

namespace Memory

open Go

/-- `MemoryEntry`. A confidence or a score that is no finite number is `none`. -/
structure MemoryEntry where
  id : Str
  key : Str
  value : Str
  memType : Str
  level : Str
  expiresAt : ℤ
  accessedAt : ℤ
  createdAt : ℤ
  tags : List Str
  source : Str
  confidence : Option ℚ
  score : Option ℚ
  deriving DecidableEq

structure SessionMemory where
  sessionID : Str
  entries : GoMap Str MemoryEntry
  accessCount : ℤ
  maxEntries : ℤ
  createdAt : ℤ
  updatedAt : ℤ
  lastUsedAt : ℤ

def newSessionMemory (sessionID : Str) (maxEntries now : ℤ) : SessionMemory where
  sessionID := sessionID
  entries := ∅
  accessCount := 0
  maxEntries := if maxEntries ≤ 0 then 5000 else maxEntries
  createdAt := now
  updatedAt := now
  lastUsedAt := now

def hour : ℤ := 3600 * 10 ^ 9

/-- What the arguments of `Store` are. -/
structure StoreArgs where
  key : Str
  value : Str
  level : Str
  memType : Str
  tags : List Str
  ttlHours : ℤ
  confidence : Option ℚ
  source : Str

/-- The order in which a `range` over the entries visits them. -/
abbrev EntryRange := GoMap Str MemoryEntry → List (Str × MemoryEntry)

namespace SessionMemory

variable (sm : SessionMemory)

def touch (now : ℤ) : SessionMemory := { sm with lastUsedAt := now }

def cleanupExpired (now : ℤ) : SessionMemory :=
  { sm with entries := sm.entries.filter fun _ entry => now ≤ entry.expiresAt }

/-- The loop of `evictLRULocked`, in the order of the range. -/
def oldestKey : List (Str × MemoryEntry) → Str → ℤ → Str
  | [], key, _ => key
  | (key', entry) :: rest, key, time =>
    if key = [] ∨ entry.accessedAt < time then oldestKey rest key' entry.accessedAt
    else oldestKey rest key time

def evictLRU (order : List (Str × MemoryEntry)) : SessionMemory :=
  let oldest := oldestKey order [] 0
  if oldest = [] then sm else { sm with entries := sm.entries.erase oldest }

/-- The eviction of `Store`. -/
def makeRoom (range : EntryRange) (now : ℤ) : SessionMemory :=
  if sm.maxEntries ≤ sm.entries.size then
    let sm := sm.cleanupExpired now
    if sm.maxEntries ≤ sm.entries.size then sm.evictLRU (range sm.entries) else sm
  else sm

/-- A confidence in percent, before rounding; the product of the `float64` may overflow. -/
def percent (confidence : ℚ) : Option ℚ :=
  if |confidence * 100| < 2 ^ 1024 - 2 ^ 970 then some (confidence * 100) else none

/-- The entry that `Store` makes. The duration is an `int64`. -/
def newEntry (args : StoreArgs) (now : ℤ) : MemoryEntry where
  id := str "entry_" ++ itoa now
  key := args.key
  value := args.value
  memType := args.memType
  level := args.level
  expiresAt :=
    if args.level = str "long" then now + 365 * 24 * hour
    else now + (args.ttlHours * hour).bmod (2 ^ 64)
  accessedAt := now
  createdAt := now
  tags := args.tags
  source := args.source
  confidence := args.confidence
  score := args.confidence.bind percent

/-- `Store`, in the session it leaves; it never fails. -/
def store (range : EntryRange) (args : StoreArgs) (now : ℤ) : SessionMemory :=
  let sm := sm.makeRoom range now
  { sm with entries := sm.entries.insert args.key (newEntry args now), updatedAt := now }

/-- `Retrieve`: the result, and the session. -/
def retrieve (key : Str) (now : ℤ) : Except Str MemoryEntry × SessionMemory :=
  match sm.entries[key]? with
  | none => (.error (str "memory not found: " ++ key), sm)
  | some entry =>
    if entry.expiresAt < now then
      (.error (str "memory expired: " ++ key), { sm with entries := sm.entries.erase key })
    else
      let entry := { entry with accessedAt := now }
      (.ok entry, { sm with
        entries := sm.entries.insert key entry
        accessCount := sm.accessCount + 1
        updatedAt := now })

def delete (key : Str) (now : ℤ) : Except Str SessionMemory :=
  match sm.entries[key]? with
  | none => .error (str "memory not found: " ++ key)
  | some _ => .ok { sm with entries := sm.entries.erase key, updatedAt := now }

/-! ## What the methods do -/

variable {sm : SessionMemory} {key : Str} {now : ℤ} {entry : MemoryEntry}

/-- No entry is expired. -/
def Unexpired (sm : SessionMemory) (now : ℤ) : Prop := ∀ e ∈ sm.entries.toList, now ≤ e.2.expiresAt
  deriving Decidable

theorem unexpired_iff : sm.Unexpired now ↔
    ∀ (key : Str) (entry : MemoryEntry), sm.entries[key]? = some entry → now ≤ entry.expiresAt := by
  simp [Unexpired, Std.ExtTreeMap.mem_toList_iff_getElem?_eq_some]

/-- The session is below its capacity. -/
def HasRoom (sm : SessionMemory) : Prop := sm.entries.size < sm.maxEntries
  deriving Decidable

theorem store_of_hasRoom (h : sm.HasRoom) (range : EntryRange) (args : StoreArgs) :
    sm.store range args now =
      { sm with entries := sm.entries.insert args.key (newEntry args now), updatedAt := now } := by
  simp only [store, makeRoom, if_neg (not_le.mpr h)]

theorem retrieve_of_none (h : sm.entries[key]? = none) :
    sm.retrieve key now = (.error (str "memory not found: " ++ key), sm) := by
  simp only [retrieve, h]

theorem retrieve_of_some (h : sm.entries[key]? = some entry) (hnow : now ≤ entry.expiresAt) :
    sm.retrieve key now = (.ok { entry with accessedAt := now }, { sm with
      entries := sm.entries.insert key { entry with accessedAt := now }
      accessCount := sm.accessCount + 1
      updatedAt := now }) := by
  simp only [retrieve, h, if_neg (not_lt.mpr hnow)]

end SessionMemory

end Memory

import Aflare.Go.Lines
import Aflare.Lib.Runs
import Aflare.Memory.Session

/-!
# The virtual filesystem

Memories, preferences, the knowledge graph and skills are shown as one filesystem. A path
`/mem/<level>/<key>` stands for the entry with this key in the session `default`, if the entry has
this level. The session keeps entries by key alone, so that the files of one key at several levels
share their storage.

What the other categories do is a parameter. The session is the one that `GetSession` returns each
time. -/

namespace Memory

open Go Runs List Function

def maxFSKeyLength : ℕ := 128

def maxFSContentLength : ℕ := 64 * 1024

structure FSEntry where
  path : Str
  type : Str
  size : ℤ
  modifiedAt : ℤ
  category : Str
  deriving DecidableEq

/-- The operations on the paths of the other categories, in their parts. -/
structure Backends where
  read : List Str → Except Str Str
  write : List Str → Str → Except Str Unit
  delete : List Str → Except Str Unit
  list : List Str → Except Str (List FSEntry)

/-- `validateFSPath`: the error, if there is one. -/
def validateFSPath (path : Str) : Option Str :=
  if hasPrefix path [47] = false then some (str "path must start with /: " ++ path)
  else if contains path (str "..") then some (str "path must not contain ..: " ++ path)
  else if contains path (str "//") then some (str "path must not contain //: " ++ path)
  else none

/-- `strings.Trim` with one byte. -/
def trimByte (b : UInt8) (s : Str) : Str := (s.dropWhile (· = b)).rdropWhile (· = b)

def splitFSPath (path : Str) : List Str := split (trimByte 47 path) [47]

variable (level : Str)

def validMemoryLevel : Bool := level = str "short" || level = str "medium" || level = str "long"

/-- The error for a level that is not one. -/
def invalidLevel : Str :=
  str "invalid memory level: " ++ level ++ str " (supported: short, medium, long)"

/-- The error for a long key. -/
def keyTooLong : Str := str "key too long (max " ++ itoa maxFSKeyLength ++ str ")"

/-! ## Memories -/

variable (sm : SessionMemory)

/-- The entries of a level that are not expired. -/
def entriesAt (level : Str) (now : ℤ) : List (Str × MemoryEntry) :=
  sm.entries.toList.filter fun e => e.2.level = level ∧ now ≤ e.2.expiresAt

def listMemKeys (level : Str) (now : ℤ) : Str :=
  joinWith [10] (((entriesAt sm level now).map Prod.fst).mergeSort fun a b => (compare a b).isLE)

variable (parts : List Str)

/-- `readMem`, with the session it leaves. -/
def readMem (now : ℤ) : Except Str Str × SessionMemory :=
  match parts.drop 1 with
  | [] => (.error (str "memory level required: /mem/<level>/[<key>]"), sm)
  | level :: rest =>
    if level = [] then (.error (str "memory level required: /mem/<level>/[<key>]"), sm)
    else if validMemoryLevel level = false then (.error (invalidLevel level), sm)
    else
      match rest with
      | [] => (.ok (listMemKeys sm level now), sm)
      | key :: _ =>
        if maxFSKeyLength < key.length then (.error keyTooLong, sm)
        else
          match sm.retrieve key now with
          | (.error err, sm) => (.error err, sm)
          | (.ok entry, sm) =>
            if entry.level = level then (.ok entry.value, sm)
            else
              (.error (str "memory not found at level " ++ level ++ str ": " ++ key), sm)

/-- The time to live of a level. -/
def ttlHours : ℤ :=
  if level = str "short" then 1 else if level = str "long" then 24 * 365 else 72

def writeMem (range : EntryRange) (sm : SessionMemory)
    (parts : List Str) (content : Str) (now : ℤ) : Except Str SessionMemory :=
  match parts.drop 1 with
  | level :: key :: _ =>
    if key = [] then .error (str "memory key required: /mem/<level>/<key>")
    else if validMemoryLevel level = false then .error (invalidLevel level)
    else if maxFSKeyLength < key.length then .error keyTooLong
    else
      .ok (sm.store range
        { key := key, value := content, level := level, memType := str "fact", tags := [],
          ttlHours := ttlHours level, confidence := some (4 / 5), source := str "fs_store" } now)
  | _ => .error (str "memory key required: /mem/<level>/<key>")

/-- `deleteMem`, which does not look at the level. -/
def deleteMem (now : ℤ) : Except Str SessionMemory :=
  match parts.drop 1 with
  | _ :: key :: _ =>
    if key = [] then .error (str "memory key required: /mem/<level>/<key>")
    else if maxFSKeyLength < key.length then .error keyTooLong
    else sm.delete key now
  | _ => .error (str "memory key required: /mem/<level>/<key>")

def memDir (path : Str) : FSEntry := ⟨path, str "dir", 0, 0, str "mem"⟩

/-- The file of an entry. -/
def memFile (e : Str × MemoryEntry) : FSEntry where
  path := str "/mem/" ++ (level ++ 47 :: e.1)
  type := str "file"
  size := e.2.value.length
  modifiedAt := e.2.createdAt
  category := str "mem"

def listMem (now : ℤ) : Except Str (List FSEntry) :=
  match parts.drop 1 with
  | [] => .ok [memDir (str "/mem/short"), memDir (str "/mem/medium"), memDir (str "/mem/long")]
  | level :: _ =>
    if validMemoryLevel level = false then .error (invalidLevel level)
    else
      .ok (((entriesAt sm level now).map (memFile level)).mergeSort
        fun a b => (compare a.path b.path).isLE)

/-! ## The operations -/

section Operations

variable (b : Backends) (range : EntryRange)
  (sm : SessionMemory) (path : Str)

def fsRead (now : ℤ) : Except Str Str × SessionMemory :=
  match validateFSPath path with
  | some err => (.error err, sm)
  | none =>
    let parts := splitFSPath path
    if parts.head? = none ∨ parts.head? = some [] then
      (.error (str "cannot read root directory; use List instead"), sm)
    else if parts.head? = some (str "mem") then readMem sm parts now
    else (b.read parts, sm)

def fsWrite (content : Str) (now : ℤ) : Except Str SessionMemory :=
  match validateFSPath path with
  | some err => .error err
  | none =>
    if maxFSContentLength < content.length then
      .error (str "content too large (max " ++ itoa maxFSContentLength ++ str " bytes)")
    else
      let parts := splitFSPath path
      if parts.head? = none ∨ parts.head? = some [] then .error (str "cannot write to root")
      else if parts.head? = some (str "mem") then writeMem range sm parts content now
      else
        match b.write parts content with
        | .error err => .error err
        | .ok () => .ok sm

def fsDelete (now : ℤ) : Except Str SessionMemory :=
  match validateFSPath path with
  | some err => .error err
  | none =>
    let parts := splitFSPath path
    if parts.head? = none ∨ parts.head? = some [] then .error (str "cannot delete root")
    else if parts.head? = some (str "mem") then deleteMem sm parts now
    else
      match b.delete parts with
      | .error err => .error err
      | .ok () => .ok sm

def fsList (now : ℤ) : Except Str (List FSEntry) :=
  match validateFSPath path with
  | some err => .error err
  | none =>
    let parts := splitFSPath path
    if parts.head? = none ∨ parts.head? = some [] then
      .ok ([str "mem", str "profile", str "kg", str "skills"].map fun category =>
        ⟨47 :: category, str "dir", 0, 0, category⟩)
    else if parts.head? = some (str "mem") then listMem sm parts now
    else b.list parts

end Operations

/-! ## Paths of memories -/

inductive Level
  | short
  | medium
  | long
  deriving DecidableEq

/-- How a level is written. -/
def Level.name : Level → Str
  | short => str "short"
  | medium => str "medium"
  | long => str "long"

/-- A path `/mem/<level>/<key>`. -/
structure MemPath where
  level : Level
  key : Str
  key_ne_nil : key ≠ []
  slash_notMem : 47 ∉ key
  deriving DecidableEq

namespace MemPath

/-- The path as it is written. -/
def text (p : MemPath) : Str := str "/mem/" ++ (p.level.name ++ 47 :: p.key)

/-- The operations do not refuse the path. -/
def Usable (p : MemPath) : Prop := validateFSPath p.text = none ∧ p.key.length ≤ maxFSKeyLength
  deriving Decidable

/-- The parts of a path. -/
theorem splitFSPath_text (p : MemPath) : splitFSPath p.text = [str "mem", p.level.name, p.key] := by
  have hmem : str "/mem/" = 47 :: (str "mem" ++ [47]) := by decide
  have hname : 47 ∉ str "mem" ∧ 47 ∉ p.level.name := by
    cases p.level <;> decide
  have htrim : trimByte 47 p.text = str "mem" ++ 47 :: (p.level.name ++ 47 :: p.key) := by
    have hfront : p.text.dropWhile (· = 47) = str "mem" ++ 47 :: (p.level.name ++ 47 :: p.key) := by
      rw [text, hmem]
      simp [str, String.utf8EncodeChar]
    rw [trimByte, hfront, rdropWhile_eq_self_iff]
    intro hne hlast
    have hkey : (str "mem" ++ 47 :: (p.level.name ++ 47 :: p.key)).getLast hne =
        p.key.getLast p.key_ne_nil := by
      simp [p.key_ne_nil, getLast_cons]
    rw [hkey] at hlast
    exact p.slash_notMem (decide_eq_true_eq.mp hlast ▸ getLast_mem _)
  rw [splitFSPath, htrim, split_append_cons, split_append_cons, split_of_notMem hname.1,
    split_of_notMem hname.2, split_of_notMem p.slash_notMem]
  rfl

variable (level : Level)

theorem validMemoryLevel_name : validMemoryLevel level.name = true := by
  cases level <;> decide

theorem name_ne_nil : level.name ≠ [] := by
  cases level <;> decide

theorem name_injective : Function.Injective Level.name := by
  intro a b h
  revert h
  cases a <;> cases b <;> decide

variable {p : MemPath} {b : Backends} {sm : SessionMemory} {now : ℤ} {content : Str}
  {range : EntryRange} {entry : MemoryEntry}

theorem str_mem_ne_nil : str "mem" ≠ [] := by decide

variable (b sm now) in
theorem fsRead_of_not_usable (h : ¬ p.Usable) :
    ∃ err, fsRead b sm p.text now = (.error err, sm) := by
  rw [fsRead]
  split
  · next err _ => exact ⟨err, rfl⟩
  · next hvalid =>
    have hlong : maxFSKeyLength < p.key.length := not_le.mp fun hkey => h ⟨hvalid, hkey⟩
    exact ⟨keyTooLong, by simp [p.splitFSPath_text, str_mem_ne_nil, readMem, name_ne_nil,
      validMemoryLevel_name, hlong]⟩

variable (b now) in
theorem fsRead_of_none (h : p.Usable) (hentry : sm.entries[p.key]? = none) :
    ∃ err, fsRead b sm p.text now = (.error err, sm) :=
  ⟨str "memory not found: " ++ p.key, by simp [fsRead, h.1, p.splitFSPath_text, str_mem_ne_nil,
    readMem, name_ne_nil,
    validMemoryLevel_name, not_lt.mpr h.2, SessionMemory.retrieve_of_none hentry]⟩

theorem fsRead_of_some (h : p.Usable) (hentry : sm.entries[p.key]? = some entry)
    (hnow : now ≤ entry.expiresAt) :
    (fsRead b sm p.text now).1.toOption =
        (if entry.level = p.level.name then some entry.value else none) ∧
      (fsRead b sm p.text now).2 = { sm with
        entries := sm.entries.insert p.key { entry with accessedAt := now }
        accessCount := sm.accessCount + 1
        updatedAt := now } := by
  simp only [fsRead, h.1, p.splitFSPath_text, head?_cons, readMem, drop_succ_cons,
    drop_zero, SessionMemory.retrieve_of_some hentry hnow, name_ne_nil, validMemoryLevel_name,
    not_lt.mpr h.2, str_mem_ne_nil, Option.some.injEq, reduceCtorEq, or_self, if_false, if_true,
    Bool.true_eq_false]
  split <;> exact ⟨rfl, rfl⟩

variable (b sm now range) in
theorem fsWrite_of_not (h : ¬ (p.Usable ∧ content.length ≤ maxFSContentLength)) :
    ∃ err, fsWrite b range sm p.text content now = .error err := by
  rw [fsWrite]
  split
  · next err _ => exact ⟨err, rfl⟩
  · next hvalid =>
    split
    · exact ⟨_, rfl⟩
    · next hcontent =>
      have hlong : maxFSKeyLength < p.key.length :=
        not_le.mp fun hkey => h ⟨⟨hvalid, hkey⟩, not_lt.mp hcontent⟩
      exact ⟨keyTooLong, by simp [p.splitFSPath_text, str_mem_ne_nil, writeMem, p.key_ne_nil,
        validMemoryLevel_name, hlong]⟩

/-- The arguments of `Store` for a write. -/
def storeArgs (p : MemPath) (content : Str) : StoreArgs where
  key := p.key
  value := content
  level := p.level.name
  memType := str "fact"
  tags := []
  ttlHours := ttlHours p.level.name
  confidence := some (4 / 5)
  source := str "fs_store"

theorem fsWrite_text (h : p.Usable) (hcontent : content.length ≤ maxFSContentLength) :
    fsWrite b range sm p.text content now = .ok (sm.store range (p.storeArgs content) now) := by
  simp [fsWrite, h.1, not_lt.mpr hcontent, p.splitFSPath_text, str_mem_ne_nil, writeMem,
    p.key_ne_nil, validMemoryLevel_name, not_lt.mpr h.2, storeArgs]

variable (b sm now) in
theorem fsDelete_of_not_usable (h : ¬ p.Usable) : ∃ err, fsDelete b sm p.text now = .error err := by
  rw [fsDelete]
  split
  · next err _ => exact ⟨err, rfl⟩
  · next hvalid =>
    have hlong : maxFSKeyLength < p.key.length := not_le.mp fun hkey => h ⟨hvalid, hkey⟩
    exact ⟨keyTooLong, by simp [p.splitFSPath_text, str_mem_ne_nil, deleteMem, p.key_ne_nil, hlong]⟩

theorem fsDelete_text (h : p.Usable) : fsDelete b sm p.text now = sm.delete p.key now := by
  simp [fsDelete, h.1, p.splitFSPath_text, str_mem_ne_nil, deleteMem, p.key_ne_nil, not_lt.mpr h.2]

theorem fsList_level : fsList b sm (str "/mem/" ++ level.name) now =
    .ok (((entriesAt sm level.name now).map (memFile level.name)).mergeSort
      fun a b => (compare a.path b.path).isLE) := by
  have hparts : validateFSPath (str "/mem/" ++ level.name) = none ∧
      splitFSPath (str "/mem/" ++ level.name) = [str "mem", level.name] := by
    cases level <;> decide
  simp [fsList, hparts.1, hparts.2, str_mem_ne_nil, listMem, validMemoryLevel_name]

end MemPath

/-! ## Runs -/

/-- The session, and for each path the content of the last `Write` that was accepted and not
followed by a `Delete`. -/
structure FSState where
  session : SessionMemory
  files : MemPath → Option Str

/-- The calls, with their times. -/
inductive FSOp
  | read (p : MemPath) (now : ℤ)
  | write (p : MemPath) (content : Str) (now : ℤ)
  | delete (p : MemPath) (now : ℤ)

section Runs

variable (b : Backends) (range : EntryRange)

def fsStart (maxEntries now : ℤ) : FSState :=
  ⟨newSessionMemory (str "default") maxEntries now, fun _ => none⟩

variable (σ : FSState)

def fsStep : FSOp → Option FSState
  | .read p now => some { σ with session := (fsRead b σ.session p.text now).2 }
  | .write p content now =>
    match fsWrite b range σ.session p.text content now with
    | .error _ => some σ
    | .ok sm => some ⟨sm, Function.update σ.files p (some content)⟩
  | .delete p now =>
    match fsDelete b σ.session p.text now with
    | .error _ => some { σ with files := Function.update σ.files p none }
    | .ok sm => some ⟨sm, Function.update σ.files p none⟩

/-- The time of a call. -/
def FSOp.now : FSOp → ℤ
  | .read _ now => now
  | .write _ _ now => now
  | .delete _ now => now

/-- The call stores an entry. -/
def FSOp.isWrite : FSOp → Bool
  | .read _ _ => false
  | .write _ _ _ => true
  | .delete _ _ => false

/-- No entry is expired, and a write finds the session below its capacity. -/
def Quiet (op : FSOp) : Prop :=
  σ.session.Unexpired op.now ∧ (op.isWrite = true → σ.session.HasRoom)
  deriving Decidable

/-- The key of a path is not in use at another level. -/
def Clear (p : MemPath) : Prop :=
  ∀ entry ∈ σ.session.entries[p.key]?, entry.level = p.level.name
  deriving Decidable

/-- A write or a delete that is not refused does not meet its key at another level. -/
def NoClash : FSOp → Prop
  | .read _ _ => True
  | .write p content _ => p.Usable ∧ content.length ≤ maxFSContentLength → Clear σ p
  | .delete p _ => p.Usable → Clear σ p

instance (σ : FSState) : DecidablePred (NoClash σ)
  | .read _ _ => .isTrue trivial
  | .write _ _ _ => inferInstanceAs (Decidable (_ ∧ _ → _))
  | .delete _ _ => inferInstanceAs (Decidable (_ → _))

/-- `Read` gives the files, and `List` shows the paths that can be read. -/
def Lawful : Prop :=
  ∀ now, σ.session.Unexpired now →
    (∀ p, (fsRead b σ.session p.text now).1.toOption = σ.files p) ∧
    ∀ level : Level, ∃ entries, fsList b σ.session (str "/mem/" ++ level.name) now = .ok entries ∧
      ∀ path, path ∈ entries.map FSEntry.path ↔ ∃ p : MemPath, p.level = level ∧ p.text = path ∧
        ((fsRead b σ.session p.text now).1.toOption).isSome

/-- The entries of the session are the files. -/
structure FSInv (σ : FSState) : Prop where
  file : ∀ (key : Str) (entry : MemoryEntry), σ.session.entries[key]? = some entry →
    ∃ p : MemPath, p.key = key ∧ p.level.name = entry.level ∧ p.Usable ∧
      σ.files p = some entry.value
  entry : ∀ p content, σ.files p = some content → ∃ entry : MemoryEntry,
    σ.session.entries[p.key]? = some entry ∧ entry.level = p.level.name ∧ entry.value = content

end Runs

variable {b : Backends} {range : EntryRange}
  {σ σ' : FSState} {op : FSOp} {p : MemPath} {now : ℤ}

theorem MemPath.ext_of_name {p q : MemPath} (hkey : p.key = q.key)
    (hlevel : p.level.name = q.level.name) : p = q := by
  obtain ⟨pl, pk, _, _⟩ := p
  obtain ⟨ql, qk, _, _⟩ := q
  obtain rfl : pk = qk := hkey
  obtain rfl : pl = ql := MemPath.name_injective hlevel
  rfl

/-- The level and the value of the entry of a key. -/
def shown (key : Str) : Option (Str × Str) :=
  sm.entries[key]?.map fun entry => (entry.level, entry.value)

variable {sm : SessionMemory}

theorem shown_insert (key : Str) (entry : MemoryEntry) :
    shown { sm with entries := sm.entries.insert key entry } =
      Function.update (shown sm) key (some (entry.level, entry.value)) := by
  funext key'
  by_cases hkey : key' = key
  · subst hkey
    simp [shown]
  · simp [shown, Std.ExtTreeMap.getElem?_insert, hkey, Ne.symm hkey]

theorem shown_erase (key : Str) :
    shown { sm with entries := sm.entries.erase key } = Function.update (shown sm) key none := by
  funext key'
  by_cases hkey : key' = key
  · subst hkey
    simp [shown]
  · simp [shown, Std.ExtTreeMap.getElem?_erase, hkey, Ne.symm hkey]

/-- What `Read` gives: the value at the key, if it has the level. -/
theorem fsRead_eq_some_iff (hnow : sm.Unexpired now) {content : Str} :
    (fsRead b sm p.text now).1.toOption = some content ↔
      p.Usable ∧ shown sm p.key = some (p.level.name, content) := by
  by_cases husable : p.Usable
  · cases hentry : sm.entries[p.key]? with
    | none =>
      obtain ⟨err, herr⟩ := MemPath.fsRead_of_none b now husable hentry
      simp [herr, shown, hentry, Except.toOption]
    | some entry =>
      have hle := SessionMemory.unexpired_iff.mp hnow _ _ hentry
      simp [(MemPath.fsRead_of_some husable hentry hle).1, shown, hentry, husable]
  · obtain ⟨err, herr⟩ := MemPath.fsRead_of_not_usable b sm now husable
    simp [herr, husable, Except.toOption]

/-- The files are what `Read` gives, and every entry is the file of a path. -/
theorem fsInv_iff : FSInv σ ↔
    (∀ p content, σ.files p = some content ↔
      p.Usable ∧ shown σ.session p.key = some (p.level.name, content)) ∧
    ∀ key x, shown σ.session key = some x →
      ∃ p : MemPath, p.key = key ∧ p.level.name = x.1 ∧ p.Usable := by
  simp only [shown, Option.map_eq_some_iff]
  constructor
  · intro h
    refine ⟨fun p content => ⟨fun hfile => ?_, ?_⟩, ?_⟩
    · obtain ⟨entry, hentry, hlevel, hvalue⟩ := h.entry p content hfile
      obtain ⟨q, hkey, hname, husable, -⟩ := h.file p.key entry hentry
      obtain rfl := MemPath.ext_of_name hkey (hname.trans hlevel)
      exact ⟨husable, entry, hentry, by rw [hlevel, hvalue]⟩
    · rintro ⟨-, entry, hentry, hx⟩
      obtain ⟨hlevel, rfl⟩ := Prod.mk.inj hx
      obtain ⟨q, hkey, hname, -, hfile⟩ := h.file p.key entry hentry
      obtain rfl := MemPath.ext_of_name hkey (hname.trans hlevel)
      exact hfile
    · rintro key _ ⟨entry, hentry, rfl⟩
      obtain ⟨p, hkey, hname, husable, -⟩ := h.file key entry hentry
      exact ⟨p, hkey, hname, husable⟩
  · rintro ⟨hfiles, hnamed⟩
    refine ⟨fun key entry hentry => ?_, fun p content hfile => ?_⟩
    · obtain ⟨p, rfl, hname, husable⟩ := hnamed key _ ⟨entry, hentry, rfl⟩
      exact ⟨p, rfl, hname, husable, (hfiles p _).mpr ⟨husable, entry, hentry, by rw [hname]⟩⟩
    · obtain ⟨-, entry, hentry, hx⟩ := (hfiles p content).mp hfile
      exact ⟨entry, hentry, congrArg Prod.fst hx, congrArg Prod.snd hx⟩

theorem clear_iff : Clear σ p ↔ ∀ x ∈ shown σ.session p.key, x.1 = p.level.name := by
  simp [Clear, shown]

namespace FSInv

theorem start (maxEntries now : ℤ) : FSInv (fsStart maxEntries now) where
  file := fun key entry h => by simp [fsStart, newSessionMemory] at h
  entry := fun p content h => by cases h

variable (h : FSInv σ)

include h

theorem read_eq (hnow : σ.session.Unexpired now) (p : MemPath) :
    (fsRead b σ.session p.text now).1.toOption = σ.files p := by
  ext content
  rw [fsRead_eq_some_iff hnow, (fsInv_iff.mp h).1]

/-- The paths of a level. -/
theorem list_eq (hnow : σ.session.Unexpired now) (level : Level) :
    ∃ entries, fsList b σ.session (str "/mem/" ++ level.name) now = .ok entries ∧
      ∀ path, path ∈ entries.map FSEntry.path ↔ ∃ p : MemPath, p.level = level ∧ p.text = path ∧
        (σ.files p).isSome := by
  refine ⟨_, MemPath.fsList_level level, fun path => ?_⟩
  simp only [mem_map, mem_mergeSort, entriesAt, mem_filter, decide_eq_true_eq]
  constructor
  · rintro ⟨-, ⟨⟨key, entry⟩, ⟨hmem, hlevel, -⟩, rfl⟩, rfl⟩
    have hentry := Std.ExtTreeMap.mem_toList_iff_getElem?_eq_some.mp hmem
    obtain ⟨p, rfl, hname, -, hfile⟩ := h.file key entry hentry
    obtain rfl : p.level = level := MemPath.name_injective (hname.trans hlevel)
    exact ⟨p, rfl, rfl, by rw [hfile]; rfl⟩
  · rintro ⟨p, rfl, rfl, hsome⟩
    obtain ⟨content, hcontent⟩ := Option.isSome_iff_exists.mp hsome
    obtain ⟨entry, hentry, hlevel, -⟩ := h.entry p content hcontent
    have hle := SessionMemory.unexpired_iff.mp hnow _ _ hentry
    have hmem := Std.ExtTreeMap.mem_toList_iff_getElem?_eq_some.mpr hentry
    exact ⟨_, ⟨(p.key, entry), ⟨hmem, hlevel, hle⟩, rfl⟩, rfl⟩

variable (b) in
theorem lawful : Lawful b σ := by
  intro now hnow
  refine ⟨fun p => h.read_eq hnow p, fun level => ?_⟩
  obtain ⟨entries, hlist, hpaths⟩ := h.list_eq (b := b) hnow level
  refine ⟨entries, hlist, fun path => ?_⟩
  simp only [hpaths, h.read_eq hnow]

/-- A read only touches the entry. -/
theorem read (hnow : σ.session.Unexpired now) :
    FSInv { σ with session := (fsRead b σ.session p.text now).2 } := by
  by_cases husable : p.Usable
  swap
  · obtain ⟨err, herr⟩ := MemPath.fsRead_of_not_usable b σ.session now husable
    rw [herr]
    exact h
  cases hentry : σ.session.entries[p.key]? with
  | none =>
    obtain ⟨err, herr⟩ := MemPath.fsRead_of_none b now husable hentry
    rw [herr]
    exact h
  | some entry =>
    have hle := SessionMemory.unexpired_iff.mp hnow _ _ hentry
    have hshown : shown (fsRead b σ.session p.text now).2 = shown σ.session := by
      rw [(MemPath.fsRead_of_some husable hentry hle).2]
      refine (shown_insert p.key _).trans (update_eq_self_iff.mpr ?_)
      simp [shown, hentry]
    rw [fsInv_iff, hshown]
    exact fsInv_iff.mp h

variable {content : Option Str}
  (hshown : shown sm = Function.update (shown σ.session) p.key (content.map (p.level.name, ·)))

include hshown

/-- Without a clash, what is done to one key is done to one path. -/
theorem update (hclear : Clear σ p) (husable : content ≠ none → p.Usable) :
    FSInv ⟨sm, Function.update σ.files p content⟩ := by
  obtain ⟨hfiles, hnamed⟩ := fsInv_iff.mp h
  refine fsInv_iff.mpr ⟨fun q c => ?_, fun key x hx => ?_⟩
  · change Function.update σ.files p content q = some c ↔ _
    rw [hshown]
    by_cases hqp : q = p
    · subst hqp
      have hcontent : content = some c → q.Usable := fun hc => husable (by simp [hc])
      simpa using hcontent
    · rw [update_of_ne hqp, hfiles]
      by_cases hkey : q.key = p.key
      · -- another file of the key would be at another level
        have hlevel : p.level.name ≠ q.level.name := fun heq =>
          hqp (MemPath.ext_of_name hkey heq.symm)
        have hnone : shown σ.session p.key ≠ some (q.level.name, c) := fun hx =>
          hlevel (clear_iff.mp hclear _ hx).symm
        simp [hkey, hlevel, hnone]
      · rw [update_of_ne hkey]
  · by_cases hkey : key = p.key
    · subst hkey
      rw [hshown, update_self] at hx
      obtain ⟨c, hc, rfl⟩ := Option.map_eq_some_iff.mp hx
      exact ⟨p, rfl, rfl, husable (by simp [hc])⟩
    · rw [hshown, update_of_ne hkey] at hx
      exact hnamed key x hx

/-- A clash: the file at the other level cannot be read any more. -/
theorem not_lawful (hclear : ¬ Clear σ p) (now : ℤ) (hnow : sm.Unexpired now) :
    ¬ Lawful b ⟨sm, Function.update σ.files p content⟩ := by
  obtain ⟨hfiles, hnamed⟩ := fsInv_iff.mp h
  simp only [clear_iff, not_forall, exists_prop] at hclear
  obtain ⟨x, hx, hlevel⟩ := hclear
  obtain ⟨q, hkey, hname, husable⟩ := hnamed p.key x hx
  have hqp : q ≠ p := by
    rintro rfl
    exact hlevel hname.symm
  intro hlawful
  have hfile : Function.update σ.files p content q = some x.2 := by
    rw [update_of_ne hqp, hfiles, hkey, hname]
    exact ⟨husable, hx⟩
  have hread := ((hlawful now hnow).1 q).trans hfile
  rw [fsRead_eq_some_iff hnow, hkey, hshown, update_self] at hread
  obtain ⟨c, -, hc⟩ := Option.map_eq_some_iff.mp hread.2
  exact hlevel (hname.symm.trans (congrArg Prod.fst hc).symm)

end FSInv

theorem shown_store (hroom : sm.HasRoom) (content : Str) :
    shown (sm.store range (p.storeArgs content) now) =
      Function.update (shown sm) p.key (some (p.level.name, content)) := by
  rw [SessionMemory.store_of_hasRoom hroom]
  exact shown_insert p.key _

/-- A delete that is not refused takes the entry of the key away. -/
theorem fsDelete_eq_ok_iff {sm' : SessionMemory} : fsDelete b sm p.text now = .ok sm' ↔
    p.Usable ∧ shown sm p.key ≠ none ∧
      { sm with entries := sm.entries.erase p.key, updatedAt := now } = sm' := by
  by_cases husable : p.Usable
  · rw [MemPath.fsDelete_text husable, SessionMemory.delete]
    cases hentry : sm.entries[p.key]? with
    | none => simp [shown, hentry]
    | some entry => simp [shown, hentry, husable]
  · obtain ⟨err, herr⟩ := MemPath.fsDelete_of_not_usable b sm now husable
    simp [herr, husable]

/-- Without clashes, expiry and evictions the entries stay the files. -/
theorem FSInv.step (h : FSInv σ) (hquiet : Quiet σ op) (hclash : NoClash σ op)
    (hstep : fsStep b range σ op = some σ') : FSInv σ' := by
  cases op with
  | read p now =>
    cases hstep
    exact h.read hquiet.1
  | write p content now =>
    by_cases haccepted : p.Usable ∧ content.length ≤ maxFSContentLength
    · simp only [fsStep, MemPath.fsWrite_text haccepted.1 haccepted.2] at hstep
      cases hstep
      exact h.update (shown_store (hquiet.2 rfl) content) (hclash haccepted) fun _ => haccepted.1
    · obtain ⟨err, herr⟩ := MemPath.fsWrite_of_not b σ.session now range haccepted
      simp only [fsStep, herr] at hstep
      cases hstep
      exact h
  | delete p now =>
    cases hdelete : fsDelete b σ.session p.text now with
    | error err =>
      simp only [fsStep, hdelete] at hstep
      cases hstep
      -- there is no file to forget
      have hnone : σ.files p = none := by
        refine Option.eq_none_iff_forall_ne_some.mpr fun content hcontent => ?_
        obtain ⟨husable, hshown⟩ := ((fsInv_iff.mp h).1 p content).mp hcontent
        have hsome : shown σ.session p.key ≠ none := by simp [hshown]
        have hok := hdelete.symm.trans (fsDelete_eq_ok_iff.mpr ⟨husable, hsome, rfl⟩)
        cases hok
      rw [← hnone, update_eq_self]
      exact h
    | ok sm =>
      simp only [fsStep, hdelete] at hstep
      cases hstep
      obtain ⟨husable, -, rfl⟩ := fsDelete_eq_ok_iff.mp hdelete
      exact h.update (shown_erase p.key) (hclash husable) fun hne => absurd rfl hne

theorem now_le_expiresAt (p : MemPath) (content : Str) (now : ℤ) :
    now ≤ (SessionMemory.newEntry (p.storeArgs content) now).expiresAt := by
  have hlong : 0 ≤ 365 * 24 * hour := by decide
  have httl : 0 ≤ (ttlHours p.level.name * hour).bmod (2 ^ 64) := by
    cases p.level <;> decide
  unfold SessionMemory.newEntry
  dsimp only
  split
  · exact le_add_of_nonneg_right hlong
  · exact le_add_of_nonneg_right httl

/-- A step that clashes breaks the laws. -/
theorem not_lawful_of_clash (h : FSInv σ) (hquiet : Quiet σ op) (hclash : ¬ NoClash σ op)
    (hstep : fsStep b range σ op = some σ') : ¬ Lawful b σ' := by
  have hnow := SessionMemory.unexpired_iff.mp hquiet.1
  cases op with
  | read p now => exact (hclash trivial).elim
  | write p content now =>
    obtain ⟨haccepted, hclear⟩ := Classical.not_imp.mp hclash
    have hshown : shown (σ.session.store range (p.storeArgs content) now) = _ :=
      shown_store (hquiet.2 rfl) content
    simp only [fsStep, MemPath.fsWrite_text haccepted.1 haccepted.2] at hstep
    cases hstep
    refine h.not_lawful hshown hclear now (SessionMemory.unexpired_iff.mpr ?_)
    rw [SessionMemory.store_of_hasRoom (hquiet.2 rfl)]
    exact GoMap.Forall.insert hnow (now_le_expiresAt p content now)
  | delete p now =>
    obtain ⟨husable, hclear⟩ := Classical.not_imp.mp hclash
    have hsome : shown σ.session p.key ≠ none := by
      intro hnone
      simp [clear_iff, hnone] at hclear
    simp only [fsStep, (fsDelete_eq_ok_iff (b := b)).mpr ⟨husable, hsome, rfl⟩] at hstep
    cases hstep
    exact h.not_lawful (shown_erase p.key) hclear now
      (SessionMemory.unexpired_iff.mpr (GoMap.Forall.erase hnow p.key))

/-! ## The laws -/

theorem exists_fsStep (σ : FSState) (op : FSOp) : ∃ σ', fsStep b range σ op = some σ' := by
  cases op with
  | read p now => exact ⟨_, rfl⟩
  | write p content now | delete p now =>
    rw [fsStep]
    split <;> exact ⟨_, rfl⟩

theorem noClash_of_lawful {ops : List FSOp} (h : FSInv σ)
    (hquiet : Guarded (fsStep b range) Quiet σ ops)
    (hlawful : ∀ before after ρ, ops = before ++ after → run (fsStep b range) σ before = some ρ →
      Lawful b ρ) : Guarded (fsStep b range) NoClash σ ops := by
  induction ops generalizing σ with
  | nil => trivial
  | cons op ops ih =>
    obtain ⟨ρ, hstep⟩ := @exists_fsStep b range σ op
    rw [guarded_cons hstep] at hquiet ⊢
    have hclash : NoClash σ op := by
      by_contra hclash
      refine not_lawful_of_clash h hquiet.1 hclash hstep (hlawful [op] ops ρ rfl ?_)
      exact run_cons.mpr ⟨ρ, hstep, rfl⟩
    refine ⟨hclash, ih (h.step hquiet.1 hclash hstep) hquiet.2 fun before after τ heq hrun => ?_⟩
    exact hlawful (op :: before) after τ (by rw [heq, cons_append])
      (run_cons.mpr ⟨ρ, hstep, hrun⟩)

/-- For every sequence of reads, writes and deletes without expiry and below capacity: in every
state `Read` gives the content of the last `Write` of the path that was not followed by a `Delete`
of it, and `List` shows the paths that can be read, iff no write or delete meets its key at another
level. -/
theorem fs_laws_iff (b : Backends) (range : EntryRange) (maxEntries created : ℤ) {ops : List FSOp}
    (hquiet : Guarded (fsStep b range) Quiet (fsStart maxEntries created) ops) :
    (∀ before after σ, ops = before ++ after →
      run (fsStep b range) (fsStart maxEntries created) before = some σ → Lawful b σ) ↔
      Guarded (fsStep b range) NoClash (fsStart maxEntries created) ops := by
  have hstart := FSInv.start maxEntries created
  constructor
  · exact noClash_of_lawful hstart hquiet
  · intro hclash before after σ heq hrun
    rw [heq, guarded_append hrun] at hquiet hclash
    refine FSInv.lawful b ((hquiet.1.and hclash.1).invariant ?_ hstart hrun)
    exact fun _ _ _ h hguard hstep => h.step hguard.1 hguard.2 hstep

/-- The other categories are empty. -/
def noBackends : Backends where
  read _ := .error []
  write _ _ := .error []
  delete _ := .error []
  list _ := .ok []

theorem k_ne_nil : ([107] : Str) ≠ [] := cons_ne_nil _ _

theorem slash_notMem_k : 47 ∉ ([107] : Str) := by decide

def shortK : MemPath := ⟨.short, [107], k_ne_nil, slash_notMem_k⟩

def longK : MemPath := ⟨.long, [107], k_ne_nil, slash_notMem_k⟩

/-- A file is written, read and deleted, and then written at another level. -/
def inTurn : List FSOp :=
  [.write shortK [97] 1, .read shortK 2, .delete shortK 3, .write longK [98] 4]

/-- The laws hold at its end. -/
theorem fs_laws_inTurn : ∃ σ,
    run (fsStep noBackends Std.ExtTreeMap.toList) (fsStart 10 0) inTurn = some σ ∧
      Lawful noBackends σ := by
  obtain ⟨σ, hrun⟩ := Option.isSome_iff_exists.mp
    (show (run (fsStep noBackends Std.ExtTreeMap.toList) (fsStart 10 0) inTurn).isSome by
      decide)
  have hlawful := (@fs_laws_iff noBackends Std.ExtTreeMap.toList 10 0 inTurn
    (by decide)).mpr (by decide)
  exact ⟨σ, hrun, hlawful inTurn [] σ (append_nil _).symm hrun⟩

/-- `/mem/short/k` is written and then `/mem/long/k`: the first file cannot be read any more. A
delete of `/mem/short/k` then takes the second one away. -/
theorem not_fs_laws :
    (run (fsStep noBackends Std.ExtTreeMap.toList) (fsStart 10 0)
      [.write shortK [97] 1, .write longK [98] 2]).map (fun σ =>
        ((fsRead noBackends σ.session shortK.text 3).1.toOption, σ.files shortK)) =
      some (none, some [97]) ∧
    (run (fsStep noBackends Std.ExtTreeMap.toList) (fsStart 10 0)
      [.write longK [98] 1, .delete shortK 2]).map (fun σ =>
        ((fsRead noBackends σ.session longK.text 3).1.toOption, σ.files longK)) =
      some (none, some [98]) := by
  decide

end Memory

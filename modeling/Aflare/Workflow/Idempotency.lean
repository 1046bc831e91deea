import Aflare.Go.Clock
import Aflare.Go.Crypto
import Aflare.Go.Search

/-!
# The idempotency ledger

Records of the runs of a workflow under a key, kept in one JSON file per key or in memory. With a
key in the environment every record is signed when it is written and checked when it is read.
-/

namespace Workflow

open Go List

/-! ## Records -/

/-- The status of a run that has been reserved. -/
def idempotencyStatusInProgress : Str := str "in_progress"

/-- The status of a run that ended without error. -/
def idempotencyStatusCompleted : Str := str "completed"

/-- The status of a run that failed. -/
def idempotencyStatusFailed : Str := str "failed"

/-- The status of a run that ended with an error or without one. -/
def idempotencyStatus (err : Option Str) : Str :=
  if err.isSome then idempotencyStatusFailed else idempotencyStatusCompleted

theorem validUtf8_inProgress : ValidUtf8 idempotencyStatusInProgress := coerce_eq_self_iff.mp rfl

theorem validUtf8_completed : ValidUtf8 idempotencyStatusCompleted := coerce_eq_self_iff.mp rfl

/-- `IdempotencyRecord`. The status of a record that was read may be any text. -/
structure IdempotencyRecord where
  key : Str
  runID : Str
  workflowPath : Str
  status : Str
  finalOutput : Str
  error : Str
  createdAt : ZonedTime
  updatedAt : ZonedTime
  hmac : Str
  deriving DecidableEq

variable {r : IdempotencyRecord}

namespace IdempotencyRecord

def zero : IdempotencyRecord := ⟨[], [], [], [], [], [], .zero, .zero, []⟩

def members (r : IdempotencyRecord) : List (Str × Value) :=
  [(str "key", .str r.key), (str "run_id", .str r.runID)] ++
    (omitEmpty (str "workflow_path") r.workflowPath ++
      ([(str "status", .str r.status)] ++
        (omitEmpty (str "final_output") r.finalOutput ++
          (omitEmpty (str "error") r.error ++
            ([(str "created_at", .str r.createdAt.text),
              (str "updated_at", .str r.updatedAt.text)] ++
              omitEmpty (str "hmac") r.hmac)))))

def fields : List (StructField IdempotencyRecord) :=
  [.of (str "key") key (fun r x => { r with key := x }) decodeString,
    .of (str "run_id") runID (fun r x => { r with runID := x }) decodeString,
    .of (str "workflow_path") workflowPath (fun r x => { r with workflowPath := x }) decodeString,
    .of (str "status") status (fun r x => { r with status := x }) decodeString,
    .of (str "final_output") finalOutput (fun r x => { r with finalOutput := x }) decodeString,
    .of (str "error") error (fun r x => { r with error := x }) decodeString,
    .of (str "created_at") createdAt (fun r x => { r with createdAt := x }) decodeZonedTime,
    .of (str "updated_at") updatedAt (fun r x => { r with updatedAt := x }) decodeZonedTime,
    .of (str "hmac") hmac (fun r x => { r with hmac := x }) decodeString]

def marshalIndent (r : IdempotencyRecord) : Str := (Value.obj r.members).marshalIndent

def unmarshal (bytes : Str) : Option IdempotencyRecord :=
  (Value.parse bytes).bind (decodeStruct fields zero)

/-- A record after a round trip through JSON. -/
def clean (r : IdempotencyRecord) : IdempotencyRecord where
  key := coerce r.key
  runID := coerce r.runID
  workflowPath := coerce r.workflowPath
  status := coerce r.status
  finalOutput := coerce r.finalOutput
  error := coerce r.error
  createdAt := r.createdAt.wholeMinutes
  updatedAt := r.updatedAt.wholeMinutes
  hmac := coerce r.hmac

/-- Every text of a record is valid UTF-8, and its times are in zones of whole minutes. -/
structure Clean (r : IdempotencyRecord) : Prop where
  key : ValidUtf8 r.key
  runID : ValidUtf8 r.runID
  workflowPath : ValidUtf8 r.workflowPath
  status : ValidUtf8 r.status
  finalOutput : ValidUtf8 r.finalOutput
  error : ValidUtf8 r.error
  createdAt : r.createdAt.WholeMinutes
  updatedAt : r.updatedAt.WholeMinutes

theorem Clean.clean_eq (h : r.Clean) (hmac : ValidUtf8 r.hmac) : r.clean = r := by
  simp only [clean, h.key.coerce_eq, h.runID.coerce_eq, h.workflowPath.coerce_eq,
    h.status.coerce_eq, h.finalOutput.coerce_eq, h.error.coerce_eq, hmac.coerce_eq,
    ZonedTime.wholeMinutes_eq_self_iff.mpr h.createdAt,
    ZonedTime.wholeMinutes_eq_self_iff.mpr h.updatedAt]

theorem shallow_members (r : IdempotencyRecord) : ∀ m ∈ r.members, m.2.Shallow := by
  simp only [members, omitEmpty, forall_mem_append, forall_mem_cons]
  simp

/-- What is read back from the text of a record is the clean record. -/
theorem unmarshal_marshalIndent (r : IdempotencyRecord) :
    unmarshal r.marshalIndent = some r.clean := by
  rw [unmarshal, marshalIndent, Value.marshalIndent,
    Value.parse_render_obj .indented (shallow_members r), Option.bind_some]
  change decodeMembers fields zero (Value.coerceMembers r.members) = some r.clean
  simp only [members, coerceMembers_append, Value.coerceMembers, cons_append, nil_append]
  -- the members fill the fields in order; those left out keep the zero value
  iterate 2 refine (decodeMembers_cons rfl rfl _).trans ?_
  refine (decodeMembers_omitEmpty rfl rfl _ _).trans ?_
  refine (decodeMembers_cons rfl rfl _).trans ?_
  iterate 2 refine (decodeMembers_omitEmpty rfl rfl _ _).trans ?_
  refine (decodeMembers_cons rfl (decodeZonedTime_coerce _ _) _).trans ?_
  refine (decodeMembers_cons rfl (decodeZonedTime_coerce _ _) _).trans ?_
  refine (decodeMembers_omitEmpty_last rfl rfl _).trans ?_
  rfl

/-- The text that is signed: the fields of the record, separated by zero bytes. -/
def signingPayload (r : IdempotencyRecord) : Str :=
  joinWith [0]
    [r.key, r.runID, r.workflowPath, r.status, r.finalOutput, r.error,
      itoa r.createdAt.unixNano, itoa r.updatedAt.unixNano]

end IdempotencyRecord

/-! ## Signatures -/

/-- `idempotencyHMACKey`: the first of two environment variables that is set. -/
def idempotencyHMACKey (getenv : Str → Str) : Option Str :=
  ([str "AFLARE_AUDIT_HMAC_KEY", str "AFLARE_SECRETS_PASSWORD"].map getenv).find? (· ≠ [])

/-- What records are signed with. -/
structure Signer where
  crypto : Crypto
  hmacKey : Option Str

namespace Signer

variable (sg : Signer)

def signRecord (r : IdempotencyRecord) : Str :=
  match sg.hmacKey with
  | none => []
  | some key => sg.crypto.hmac .sha256 key r.signingPayload

def verifyRecord (r : IdempotencyRecord) : Bool :=
  match sg.hmacKey with
  | none => true
  | some _ => r.hmac ≠ [] && r.hmac = sg.signRecord r

/-- A record with its signature. -/
def sign (r : IdempotencyRecord) : IdempotencyRecord := { r with hmac := sg.signRecord r }

theorem validUtf8_signRecord (r : IdempotencyRecord) : ValidUtf8 (sg.signRecord r) := by
  unfold signRecord
  split
  · exact validUtf8_of_ascii (by simp)
  · exact (sg.crypto.hmac_hex _ _ _).validUtf8

theorem verifyRecord_sign (r : IdempotencyRecord) : sg.verifyRecord (sg.sign r) = true := by
  unfold verifyRecord
  split
  · rfl
  · rename_i key hkey
    have hne : sg.signRecord r ≠ [] := by
      simp only [signRecord, hkey]
      exact (sg.crypto.hmac_hex _ _ _).ne_nil
    -- the signature itself is not part of what is signed
    have hself : (sg.sign r).hmac = sg.signRecord (sg.sign r) := rfl
    rw [← hself]
    simp only [sign, decide_true, Bool.and_true]
    exact decide_eq_true hne

end Signer

/-! ### Records that were not signed -/

namespace IdempotencyRecord

/-- The texts of a record that are signed. -/
def texts (r : IdempotencyRecord) : List Str :=
  [r.key, r.runID, r.workflowPath, r.status, r.finalOutput, r.error]

/-- What a signature is to protect: the texts, and the instants of the times. -/
def signed (r : IdempotencyRecord) : List Str × ℤ × ℤ :=
  (r.texts, r.createdAt.instant, r.updatedAt.instant)

/-- The times of the records are less than 2^64 nanoseconds apart, that is 584 years. -/
def NearInTime (r r' : IdempotencyRecord) : Prop :=
  |r.createdAt.instant - r'.createdAt.instant| < 2 ^ 64 ∧
    |r.updatedAt.instant - r'.updatedAt.instant| < 2 ^ 64

variable {r' : IdempotencyRecord}

/-- Without zero bytes the parts of what is signed can be told apart, and the two times with them,
which are signed as 64 bit integers. -/
theorem signed_eq_of_signingPayload (h : ∀ text ∈ r.texts, 0 ∉ text) (hnear : r'.NearInTime r)
    (hpayload : r.signingPayload = r'.signingPayload) : r'.signed = r.signed := by
  have hparts := joinWith_inj (by rfl) (fun part hpart => ?_) hpayload
  · simp only [List.cons.injEq, itoa_injective.eq_iff] at hparts
    obtain ⟨hkey, hrun, hpath, hstatus, houtput, herror, hcreated, hupdated, -⟩ := hparts
    simp only [NearInTime, abs_lt] at hnear
    simp only [ZonedTime.unixNano, wrapInt64] at hcreated hupdated
    have hcreated : r'.createdAt.instant = r.createdAt.instant := by omega
    have hupdated : r'.updatedAt.instant = r.updatedAt.instant := by omega
    simp [signed, texts, *]
  · have hzero : ∀ n : ℤ, 0 ∉ itoa n := fun n hn => by simpa [isDigit] using mem_itoa hn
    simp only [texts, forall_mem_cons] at h
    simp only [mem_cons, not_mem_nil, or_false] at hpart
    rcases hpart with rfl | rfl | rfl | rfl | rfl | rfl | rfl | rfl <;>
      simp [h, hzero]

/-- A zero byte in a text moves into the next part, or into the one before. -/
theorem zero_notMem_texts (h : ∀ r' : IdempotencyRecord, r'.NearInTime r →
    r'.signingPayload = r.signingPayload → r'.signed = r.signed) : ∀ text ∈ r.texts, 0 ∉ text := by
  have hshift : ∀ r' : IdempotencyRecord, r'.texts ≠ r.texts →
      r'.NearInTime r → r'.signingPayload ≠ r.signingPayload := fun r' hne hnear hpayload =>
    hne (congrArg Prod.fst (h r' hnear hpayload))
  have hself : r.NearInTime r := by simp [NearInTime]
  simp only [texts, forall_mem_cons, not_mem_nil, false_imp_iff, implies_true, and_true]
  refine ⟨?_, ?_, ?_, ?_, ?_, ?_⟩ <;> intro hmem <;>
    obtain ⟨x, y, hxy, -⟩ := eq_append_cons_of_mem hmem
  · refine hshift { r with key := x, runID := y ++ 0 :: r.runID } ?_ hself ?_ <;>
      simp [texts, signingPayload, joinWith, hxy]
  · refine hshift { r with runID := x, workflowPath := y ++ 0 :: r.workflowPath } ?_ hself ?_ <;>
      simp [texts, signingPayload, joinWith, hxy]
  · refine hshift { r with workflowPath := x, status := y ++ 0 :: r.status } ?_ hself ?_ <;>
      simp [texts, signingPayload, joinWith, hxy]
  · refine hshift { r with status := x, finalOutput := y ++ 0 :: r.finalOutput } ?_ hself ?_ <;>
      simp [texts, signingPayload, joinWith, hxy]
  · refine hshift { r with finalOutput := x, error := y ++ 0 :: r.error } ?_ hself ?_ <;>
      simp [texts, signingPayload, joinWith, hxy]
  · refine hshift { r with finalOutput := r.finalOutput ++ 0 :: x, error := y } ?_ hself ?_ <;>
      simp [texts, signingPayload, joinWith, hxy]

end IdempotencyRecord

/-- Why a store does not answer a request. -/
inductive IdempotencyError
  | inProgress
  | emptyKey
  | parse
  deriving DecidableEq, Repr

variable {now : ZonedTime}

namespace IdempotencyRecord

/-- The record is older than the time to live, if there is one. -/
def expired (r : IdempotencyRecord) (ttl : ℤ) (now : ZonedTime) : Bool :=
  0 < ttl && ttl < now.instant - r.updatedAt.instant

/-- The record with the times that are not set filled in. -/
def stamp (now : ZonedTime) (r : IdempotencyRecord) : IdempotencyRecord :=
  { r with
    createdAt := if r.createdAt.isZero then now else r.createdAt
    updatedAt := if r.updatedAt.isZero then now else r.updatedAt }

/-- The record that a reservation writes. -/
def placeholder (key runID : Str) (now : ZonedTime) : IdempotencyRecord :=
  { zero with
    key := key
    runID := runID
    status := idempotencyStatusInProgress
    createdAt := now
    updatedAt := now }

theorem clean_placeholder {key runID : Str} (hkey : ValidUtf8 key)
    (hrunID : ValidUtf8 runID) (hnow : now.WholeMinutes) : (placeholder key runID now).Clean where
  key := hkey
  runID := hrunID
  workflowPath := validUtf8_nil
  status := validUtf8_inProgress
  finalOutput := validUtf8_nil
  error := validUtf8_nil
  createdAt := hnow
  updatedAt := hnow

theorem stamp_placeholder (key runID : Str) (now : ZonedTime) :
    (placeholder key runID now).stamp now = placeholder key runID now := by
  cases hzero : now.isZero <;> simp [stamp, placeholder, hzero]

end IdempotencyRecord

structure Reservation where
  record : IdempotencyRecord
  reserved : Bool
  err : Option IdempotencyError
  deriving DecidableEq

/-- The answer to a reservation from a record that stands in its way; a failed record does not. -/
def Reservation.yield (r : IdempotencyRecord) : Option Reservation :=
  if r.status = idempotencyStatusCompleted then some ⟨r, false, none⟩
  else if r.status = idempotencyStatusInProgress then some ⟨r, false, some .inProgress⟩
  else none

/-- The time to live of a file store for which none is given, in nanoseconds. -/
def defaultIdempotencyTTL : ℤ := 7 * 24 * 3600 * 1000000000

/-- `FileIdempotencyStore`: the files of its directory by name. -/
structure FileStore where
  files : GoMap Str Str
  ttl : ℤ

namespace FileStore

/-- `NewFileIdempotencyStore` in an empty directory. -/
def new (ttl : ℤ) : FileStore where
  files := ∅
  ttl := if ttl ≤ 0 then defaultIdempotencyTTL else ttl

variable (sg : Signer)

/-- `pathFor`, the name in the directory. -/
def pathFor (key : Str) : Str := sg.crypto.sha256 key ++ str ".json"

def readLocked (s : FileStore) (key : Str) : Except IdempotencyError (Option IdempotencyRecord) :=
  match s.files[pathFor sg key]? with
  | none => .ok none
  | some data =>
    if data = [] then .ok none
    else
      match IdempotencyRecord.unmarshal data with
      | none => .error .parse
      | some r => if sg.verifyRecord r then .ok (some r) else .ok none

def writeLocked (now : ZonedTime) (key : Str) (r : IdempotencyRecord) (s : FileStore) : FileStore :=
  { s with files := s.files.insert (pathFor sg key) (sg.sign (r.stamp now)).marshalIndent }

/-- The file of a key is removed. -/
def remove (key : Str) (s : FileStore) : FileStore :=
  { s with files := s.files.erase (pathFor sg key) }

def check (now : ZonedTime) (key : Str) (s : FileStore) :
    Except IdempotencyError (Option IdempotencyRecord) × FileStore :=
  match s.readLocked sg key with
  | .error e => (.error e, s)
  | .ok none => (.ok none, s)
  | .ok (some r) => if r.expired s.ttl now then (.ok none, s.remove sg key) else (.ok (some r), s)

def record (now : ZonedTime) (r : IdempotencyRecord) (s : FileStore) :
    Option IdempotencyError × FileStore :=
  if r.key = [] then (some .emptyKey, s) else (none, s.writeLocked sg now r.key r)

def reserve (now : ZonedTime) (key runID : Str) (s : FileStore) : Reservation × FileStore :=
  let claim (s : FileStore) :=
    let r := IdempotencyRecord.placeholder key runID now
    ((⟨r, true, none⟩ : Reservation), s.writeLocked sg now key r)
  if key = [] then (⟨.zero, false, some .emptyKey⟩, s)
  else
    match s.readLocked sg key with
    | .error e => (⟨.zero, false, some e⟩, s)
    | .ok none => claim s
    | .ok (some r) =>
      if r.expired s.ttl now then claim (s.remove sg key)
      else
        match Reservation.yield r with
        | some answer => (answer, s)
        | none => claim s

def clear (key : Str) (s : FileStore) : FileStore := s.remove sg key

end FileStore

structure MemoryStore where
  recs : GoMap Str IdempotencyRecord
  ttl : ℤ

namespace MemoryStore

def new (ttl : ℤ) : MemoryStore where
  recs := ∅
  ttl := if ttl < 0 then 0 else ttl

variable (sg : Signer)

/-- A record is stored with its signature. -/
def put (key : Str) (r : IdempotencyRecord) (s : MemoryStore) : MemoryStore :=
  { s with recs := s.recs.insert key (sg.sign r) }

/-- The record of a key is removed. -/
def remove (key : Str) (s : MemoryStore) : MemoryStore := { s with recs := s.recs.erase key }

def check (now : ZonedTime) (key : Str) (s : MemoryStore) :
    Except IdempotencyError (Option IdempotencyRecord) × MemoryStore :=
  match s.recs[key]? with
  | none => (.ok none, s)
  | some r =>
    if r.expired s.ttl now then (.ok none, s.remove key)
    else if !sg.verifyRecord r then (.ok none, s.remove key)
    else (.ok (some r), s)

def record (now : ZonedTime) (r : IdempotencyRecord) (s : MemoryStore) :
    Option IdempotencyError × MemoryStore :=
  if r.key = [] then (some .emptyKey, s) else (none, s.put sg r.key (r.stamp now))

def reserve (now : ZonedTime) (key runID : Str) (s : MemoryStore) : Reservation × MemoryStore :=
  let claim (s : MemoryStore) :=
    let r := IdempotencyRecord.placeholder key runID now
    ((⟨sg.sign r, true, none⟩ : Reservation), s.put sg key r)
  if key = [] then (⟨.zero, false, some .emptyKey⟩, s)
  else
    match s.recs[key]? with
    | none => claim s
    | some r =>
      if r.expired s.ttl now then claim (s.remove key)
      else if !sg.verifyRecord r then claim (s.remove key)
      else
        match Reservation.yield r with
        | some answer => (answer, s)
        | none => claim s

def clear (key : Str) (s : MemoryStore) : MemoryStore := s.remove key

end MemoryStore

/-! ## Both stores as one -/

inductive IdempotencyStore
  | file (s : FileStore)
  | memory (s : MemoryStore)

variable {s : IdempotencyStore}

namespace IdempotencyStore

variable (sg : Signer)

def check (now : ZonedTime) (key : Str) :
    IdempotencyStore → Except IdempotencyError (Option IdempotencyRecord) × IdempotencyStore
  | .file s => ((s.check sg now key).1, .file (s.check sg now key).2)
  | .memory s => ((s.check sg now key).1, .memory (s.check sg now key).2)

def reserve (now : ZonedTime) (key runID : Str) : IdempotencyStore → Reservation × IdempotencyStore
  | .file s => ((s.reserve sg now key runID).1, .file (s.reserve sg now key runID).2)
  | .memory s => ((s.reserve sg now key runID).1, .memory (s.reserve sg now key runID).2)

def record (now : ZonedTime) (r : IdempotencyRecord) :
    IdempotencyStore → Option IdempotencyError × IdempotencyStore
  | .file s => ((s.record sg now r).1, .file (s.record sg now r).2)
  | .memory s => ((s.record sg now r).1, .memory (s.record sg now r).2)

def clear (key : Str) : IdempotencyStore → IdempotencyStore
  | .file s => .file (s.clear sg key)
  | .memory s => .memory (s.clear key)

/-- The records of the store go through JSON. -/
def isFile : IdempotencyStore → Bool
  | .file _ => true
  | .memory _ => false

def ttl : IdempotencyStore → ℤ
  | .file s => s.ttl
  | .memory s => s.ttl

/-- What a lookup finds, apart from expiry. -/
def read (key : Str) : IdempotencyStore → Option IdempotencyRecord
  | .file s =>
    match s.readLocked sg key with
    | .ok r => r
    | .error _ => none
  | .memory s => s.recs[key]?.filter sg.verifyRecord

/-- What a lookup finds that has not expired. -/
def live (now : ZonedTime) (key : Str) (s : IdempotencyStore) : Option IdempotencyRecord :=
  (s.read sg key).filter fun r => !r.expired s.ttl now

/-- What a lookup finds of a record after it was written. -/
def kept (isFile : Bool) (r : IdempotencyRecord) : Option IdempotencyRecord :=
  if isFile then (some (sg.sign r).clean).filter sg.verifyRecord else some (sg.sign r)

/-- The file of the key, if there is one, was written by the store. -/
def Sound (key : Str) : IdempotencyStore → Prop
  | .file s => ∀ data, s.files[FileStore.pathFor sg key]? = some data →
      ∃ r : IdempotencyRecord, data = r.marshalIndent
  | .memory _ => True

/-- An operation left the store sound, with a lookup that finds `found`. -/
structure After (key : Str) (found : Option IdempotencyRecord) (s s' : IdempotencyStore) :
    Prop where
  isFile : s'.isFile = s.isFile
  ttl : s'.ttl = s.ttl
  sound : s'.Sound sg key
  read : s'.read sg key = found

variable {sg} {key : Str}

theorem After.refl (h : s.Sound sg key) : After sg key (s.read sg key) s s := ⟨rfl, rfl, h, rfl⟩

theorem marshalIndent_ne_nil (r : IdempotencyRecord) : r.marshalIndent ≠ [] :=
  Value.render_ne_nil _ (Value.wellFormed_obj (IdempotencyRecord.shallow_members r)) 0

theorem readLocked_of_sound {s : FileStore} (h : (IdempotencyStore.file s).Sound sg key) :
    s.readLocked sg key = .ok ((IdempotencyStore.file s).read sg key) := by
  cases hfile : s.files[FileStore.pathFor sg key]? with
  | none => simp only [read, FileStore.readLocked, hfile]
  | some data =>
    obtain ⟨r, rfl⟩ := h data hfile
    simp only [read, FileStore.readLocked, hfile, marshalIndent_ne_nil, if_false,
      IdempotencyRecord.unmarshal_marshalIndent]
    split <;> rfl

theorem after_writeLocked (s : FileStore) (now : ZonedTime) (r : IdempotencyRecord) :
    After sg key (kept sg true (r.stamp now)) (.file s) (.file (s.writeLocked sg now key r)) := by
  refine ⟨rfl, rfl, ?_, ?_⟩
  · intro data hdata
    simp only [FileStore.writeLocked, Std.ExtTreeMap.getElem?_insert_self, Option.some_inj] at hdata
    exact ⟨_, hdata.symm⟩
  · simp only [read, FileStore.readLocked, FileStore.writeLocked,
      Std.ExtTreeMap.getElem?_insert_self, marshalIndent_ne_nil, if_false,
      IdempotencyRecord.unmarshal_marshalIndent, kept, if_true, Option.filter_some]
    by_cases hv : sg.verifyRecord (sg.sign (r.stamp now)).clean = true
    · simp only [hv, if_true]
    · simp only [hv, Bool.false_eq_true, if_false]

theorem after_put (s : MemoryStore) (r : IdempotencyRecord) :
    After sg key (kept sg false r) (.memory s) (.memory (s.put sg key r)) := by
  refine ⟨rfl, rfl, trivial, ?_⟩
  simp [read, MemoryStore.put, kept, sg.verifyRecord_sign]

theorem after_clear (s : IdempotencyStore) : After sg key none s (s.clear sg key) := by
  cases s with
  | file s =>
    refine ⟨rfl, rfl, ?_, ?_⟩
    · intro data hdata
      simp [FileStore.clear, FileStore.remove] at hdata
    · simp [read, clear, FileStore.clear, FileStore.readLocked, FileStore.remove]
  | memory s =>
    exact ⟨rfl, rfl, trivial, by simp [read, clear, MemoryStore.clear, MemoryStore.remove]⟩

theorem live_eq_read (hfresh : ∀ r ∈ s.read sg key, r.expired s.ttl now = false) :
    s.live sg now key = s.read sg key := by
  rw [live]
  cases hr : s.read sg key with
  | none => rfl
  | some r => simp [hfresh r hr]

variable (now) (hsound : s.Sound sg key)

include hsound

/-- `Check` answers with what the store holds, unless it has expired. -/
theorem check_spec : (s.check sg now key).1 = .ok (s.live sg now key) ∧
    After sg key (s.live sg now key) s (s.check sg now key).2 := by
  have hsame := After.refl hsound
  cases s with
  | file s =>
    have hclear : After sg key none _ (.file (s.remove sg key)) := after_clear (.file s)
    simp only [check, FileStore.check, readLocked_of_sound hsound, live]
    cases hr : (IdempotencyStore.file s).read sg key with
    | none =>
      rw [hr] at hsame
      exact ⟨rfl, hsame⟩
    | some r =>
      rw [hr] at hsame
      cases hexp : r.expired s.ttl now with
      | true => simpa [ttl, Option.filter_some, hexp] using hclear
      | false => simpa [ttl, Option.filter_some, hexp] using hsame
  | memory s =>
    have hclear : After sg key none _ (.memory (s.remove key)) := after_clear (.memory s)
    simp only [check, MemoryStore.check, live]
    cases hget : s.recs[key]? with
    | none => simpa [read, hget] using hsame
    | some r =>
      -- a record that does not verify counts as absent, and is removed
      by_cases hv : sg.verifyRecord r = true
      · cases hexp : r.expired s.ttl now with
        | true => simpa [read, hget, ttl, hexp, hv, Option.filter_some] using hclear
        | false => simpa [read, hget, ttl, hexp, hv, Option.filter_some] using hsame
      · simpa [read, hget, hv, Option.filter_some] using hclear

variable (hkey : key ≠ []) (runID : Str)

include hkey

/-- A reservation yields to a record that stands in its way. -/
theorem reserve_of_some {answer : Reservation}
    (h : (s.live sg now key).bind Reservation.yield = some answer) :
    s.reserve sg now key runID = (answer, s) := by
  obtain ⟨r, hlive, hyield⟩ := Option.bind_eq_some_iff.mp h
  obtain ⟨hr, hexp⟩ := Option.filter_eq_some_iff.mp hlive
  cases s with
  | file s =>
    have hread := readLocked_of_sound hsound
    simp_all [reserve, FileStore.reserve, ttl]
  | memory s =>
    obtain ⟨hget, hv⟩ := Option.filter_eq_some_iff.mp hr
    simp_all [reserve, MemoryStore.reserve, ttl]

/-- A reservation that nothing stands in the way of writes its placeholder. -/
theorem reserve_of_none (h : (s.live sg now key).bind Reservation.yield = none) :
    (s.reserve sg now key runID).1 = ⟨if s.isFile then .placeholder key runID now
        else sg.sign (.placeholder key runID now), true, none⟩ ∧
      After sg key (kept sg s.isFile (.placeholder key runID now)) s
        (s.reserve sg now key runID).2 := by
  cases s with
  | file s =>
    have hwrite (s' : FileStore) (httl : s'.ttl = s.ttl) :
        After sg key (kept sg true (.placeholder key runID now)) (.file s)
          (.file (s'.writeLocked sg now key (.placeholder key runID now))) := by
      have hafter : After sg key _ (.file s') (.file (s'.writeLocked sg now key _)) :=
        after_writeLocked s' now (.placeholder key runID now)
      rw [IdempotencyRecord.stamp_placeholder] at hafter
      exact ⟨rfl, httl, hafter.sound, hafter.read⟩
    simp only [reserve, FileStore.reserve, hkey, readLocked_of_sound hsound, if_false]
    cases hr : (IdempotencyStore.file s).read sg key with
    | none => exact ⟨rfl, hwrite s rfl⟩
    | some r =>
      cases hexp : r.expired s.ttl now with
      | true =>
        simp only [hexp, if_true]
        exact ⟨rfl, hwrite (s.remove sg key) rfl⟩
      | false =>
        have hyield : Reservation.yield r = none := by simpa [live, hr, ttl, hexp] using h
        simp only [hexp, hyield, Bool.false_eq_true, if_false]
        exact ⟨rfl, hwrite s rfl⟩
  | memory s =>
    have hput (s' : MemoryStore) (httl : s'.ttl = s.ttl) :
        After sg key (kept sg false (.placeholder key runID now)) (.memory s)
          (.memory (s'.put sg key (.placeholder key runID now))) :=
      ⟨rfl, httl, trivial, (after_put s' _).read⟩
    simp only [reserve, MemoryStore.reserve, hkey, if_false]
    cases hget : s.recs[key]? with
    | none => exact ⟨rfl, hput s rfl⟩
    | some r =>
      cases hexp : r.expired s.ttl now with
      | true =>
        simp only [hexp, if_true]
        exact ⟨rfl, hput (s.remove key) rfl⟩
      | false =>
        by_cases hv : sg.verifyRecord r = true
        · have hyield : Reservation.yield r = none := by
            simpa [live, read, hget, hv, ttl, hexp] using h
          simp only [hexp, hv, hyield, Bool.not_true, Bool.false_eq_true, if_false]
          exact ⟨rfl, hput s rfl⟩
        · simp only [hexp, hv, Bool.not_false, Bool.false_eq_true, if_false, if_true]
          exact ⟨rfl, hput (s.remove key) rfl⟩

omit hsound hkey

theorem record_spec (s : IdempotencyStore) (now : ZonedTime) (hkey : r.key ≠ []) :
    After sg r.key (kept sg s.isFile (r.stamp now)) s (s.record sg now r).2 := by
  cases s with
  | file s =>
    simp only [record, FileStore.record, hkey, if_false]
    exact after_writeLocked s now r
  | memory s =>
    simp only [record, MemoryStore.record, hkey, if_false]
    exact after_put s (r.stamp now)

theorem kept_of_clean (h : r.Clean) (isFile : Bool) : kept sg isFile r = some (sg.sign r) := by
  have hclean : (sg.sign r).clean = sg.sign r :=
    IdempotencyRecord.Clean.clean_eq { h with } (sg.validUtf8_signRecord r)
  cases isFile
  · rfl
  · simp [kept, hclean, sg.verifyRecord_sign]

theorem kept_of_unsigned (hkey : sg.hmacKey = none) (r : IdempotencyRecord) (isFile : Bool) :
    kept sg isFile r = some (if isFile then (sg.sign r).clean else sg.sign r) := by
  cases isFile
  · rfl
  · simp [kept, Signer.verifyRecord, hkey]

end IdempotencyStore

end Workflow

import Aflare.History.AuditLog
import Aflare.Lib.HashChain
import Aflare.Lib.Runs

/-!
# Appending to the audit log

The keys that records are signed with, how the end of the log is read, and `AppendAuditLog`. A log
that has been written by appends under one key is described by the records that were appended.
-/

namespace History

open Go List

/-! ## Keys -/

/-- The environment variable with the explicit key. -/
def auditEnvHMACKey : Str := str "AFLARE_AUDIT_HMAC_KEY"

/-- The environment variable with the password of the secrets. -/
def auditEnvSecretsPasswd : Str := str "AFLARE_SECRETS_PASSWORD"

/-- The environment variable with the algorithm of new records. -/
def auditEnvHMACAlgo : Str := str "AFLARE_AUDIT_HMAC_ALGO"

def auditDefaultKey : Str := str "aflare-default-audit-hmac-key-v1"

/-- The files of the history directory that the audit log uses; `none` is a missing file. -/
structure HistoryDir where
  auditLog : Option Str
  keyFile : Option Str
  deriving DecidableEq

def readAuditKeyFile (dir : HistoryDir) : Except AuditError (Option Str) :=
  match dir.keyFile with
  | none => .ok none
  | some data => if trimSpace data = [] then .error .emptyKeyFile else .ok (some (trimSpace data))

/-- Add a key that is not empty and not there yet. -/
def addKey (candidates : List Str) (key : Str) : List Str :=
  if key = [] ∨ key ∈ candidates then candidates else candidates ++ [key]

variable {k : Str} {key : Str}

theorem mem_addKey {candidates : List Str} :
    k ∈ addKey candidates key ↔ k ∈ candidates ∨ k = key ∧ key ≠ [] := by
  unfold addKey
  split
  · rename_i h
    constructor
    · exact Or.inl
    · rintro (hk | ⟨rfl, hne⟩)
      · exact hk
      · exact h.resolve_left hne
  · rename_i h
    push Not at h
    simp [h.1]

def auditKeyCandidates (c : Crypto) (getenv : Str → Str) (dir : HistoryDir) : List Str :=
  let explicit := addKey [] (getenv auditEnvHMACKey)
  let password := getenv auditEnvSecretsPasswd
  let derived := if password ≠ [] then addKey explicit (c.pbkdf2 password) else explicit
  let stored :=
    match readAuditKeyFile dir with
    | .ok (some key) => addKey derived key
    | _ => derived
  addKey stored auditDefaultKey

variable {dir : HistoryDir} {getenv : Str → Str} {c : Crypto}

/-- The candidates: the explicit key, the key of the password, the one in the key file, and always
the built-in key. -/
theorem mem_auditKeyCandidates :
    k ∈ auditKeyCandidates c getenv dir ↔
      k = getenv auditEnvHMACKey ∧ getenv auditEnvHMACKey ≠ [] ∨
        k = c.pbkdf2 (getenv auditEnvSecretsPasswd) ∧ getenv auditEnvSecretsPasswd ≠ [] ∨
        readAuditKeyFile dir = .ok (some k) ∨ k = auditDefaultKey := by
  have hfile : ∀ key, readAuditKeyFile dir = .ok (some key) → key ≠ [] := by
    intro key h
    unfold readAuditKeyFile at h
    split at h
    · cases h
    · split_ifs at h with hempty
      cases h
      exact hempty
  have hpassword := c.pbkdf2_ne_nil (getenv auditEnvSecretsPasswd)
  have hdefault : auditDefaultKey ≠ [] := by decide
  unfold auditKeyCandidates
  by_cases hpasswd : getenv auditEnvSecretsPasswd = []
  · cases hread : readAuditKeyFile dir with
    | error err => simp [mem_addKey, hpasswd, hdefault]
    | ok key =>
      cases key with
      | none => simp [mem_addKey, hpasswd, hdefault]
      | some key => simp [mem_addKey, hpasswd, hdefault, hfile key hread, or_assoc, eq_comm]
  · cases hread : readAuditKeyFile dir with
    | error err => simp [mem_addKey, hpasswd, hdefault, hpassword, or_assoc]
    | ok key =>
      cases key with
      | none => simp [mem_addKey, hpasswd, hdefault, hpassword, or_assoc]
      | some key =>
        simp [mem_addKey, hpasswd, hdefault, hpassword, hfile key hread, or_assoc, eq_comm]

theorem auditDefaultKey_mem (c : Crypto) (getenv : Str → Str) (dir : HistoryDir) :
    auditDefaultKey ∈ auditKeyCandidates c getenv dir :=
  mem_auditKeyCandidates.mpr (Or.inr (Or.inr (Or.inr rfl)))

theorem explicit_mem (c : Crypto) (dir : HistoryDir) (h : getenv auditEnvHMACKey ≠ []) :
    getenv auditEnvHMACKey ∈ auditKeyCandidates c getenv dir :=
  mem_auditKeyCandidates.mpr (Or.inl ⟨rfl, h⟩)

/-! ## The end of the log -/

/-- The last line that is not blank. -/
def lastLine (content : Str) : Option Str :=
  ((split content [10]).reverse.map trimSpace).find? (· ≠ [])

def lastHashFromTail (content : Str) : Except AuditError Str :=
  match lastLine content with
  | none => .ok auditZeroHash
  | some line =>
    match AuditLog.unmarshal line with
    | none => .error .parse
    | some entry => .ok (if entry.currHash = [] then auditZeroHash else entry.currHash)

/-- The last 8 KiB of a file. -/
def tailWindow (data : Str) : Str := data.drop (data.length - 8192)

def readLastAuditHash : Option Str → Except AuditError Str
  | none => .ok auditZeroHash
  | some data =>
    if data = [] then .ok auditZeroHash
    else
      match lastHashFromTail (tailWindow data) with
      | .ok hash => .ok hash
      | .error _ => lastHashFromTail data

def lastAuditRecord (file : Option Str) : Option AuditLog :=
  file.bind fun data => (lastLine (tailWindow data)).bind AuditLog.unmarshal

/-- `chainContinuityKey`: the key of the last record, if there is one with a hash. -/
def chainContinuityKey (c : Crypto) (candidates : List Str) (file : Option Str) :
    Except AuditError (Option Str) :=
  match lastAuditRecord file with
  | none => .ok none
  | some entry =>
    if entry.currHash = [] then .ok none
    else
      match candidates.find? fun key =>
          (computeAuditHash c key { entry with currHash := [] }).toOption = some entry.currHash with
      | some key => .ok (some key)
      | none => .error .keyUnavailable

/-- `auditKeyForAppend`: the key to sign the next record with, and the directory, in which a key
file may have been created from random bytes. -/
def auditKeyForAppend (c : Crypto) (getenv : Str → Str) (dir : HistoryDir)
    (random : List UInt8) : Except AuditError (Str × HistoryDir) :=
  if getenv auditEnvHMACKey ≠ [] then .ok (getenv auditEnvHMACKey, dir)
  else
    match chainContinuityKey c (auditKeyCandidates c getenv dir) dir.auditLog with
    | .error err => .error err
    | .ok (some key) => .ok (key, dir)
    | .ok none =>
      if getenv auditEnvSecretsPasswd ≠ [] then
        .ok (c.pbkdf2 (getenv auditEnvSecretsPasswd), dir)
      else
        match readAuditKeyFile dir with
        | .error err => .error err
        | .ok (some key) => .ok (key, dir)
        | .ok none =>
          if dir.auditLog.getD [] = [] then
            -- a new chain gets a key file of its own
            .ok (hexEncode random, { dir with keyFile := some (hexEncode random) })
          else .ok (auditDefaultKey, dir)

/-! ## Appending -/

def resolveAuditMACAlgo (value : Str) : Except AuditError HashAlgo :=
  let name := asciiLower (trimSpace value)
  if name = [] ∨ name = str "sha256" then .ok .sha256
  else if name = str "sm3" then .ok .sm3
  else .error .invalidAlgo

/-- A call of `AppendAuditLog`: the record, the environment, what the clock shows when it is asked
for the id and for the time stamp, and the random bytes of a new key. -/
structure AppendCall where
  log : AuditLog
  getenv : Str → Str
  nowID : ZonedTime
  now : ZonedTime
  random : List UInt8

/-- The record of a call with its defaults, and with the algorithm that the environment selects. -/
def AppendCall.entry (call : AppendCall) : AuditLog :=
  { call.log with
    id := if call.log.id = [] then itoa call.nowID.unixNano else call.log.id
    timestamp := if call.log.timestamp.isZero then call.now else call.log.timestamp
    macAlgo :=
      match resolveAuditMACAlgo (call.getenv auditEnvHMACAlgo) with
      | .ok .sm3 => str "sm3"
      | _ => [] }

def appendAuditLog (c : Crypto) (dir : HistoryDir) (call : AppendCall) :
    Except AuditError HistoryDir := do
  let _ ← resolveAuditMACAlgo (call.getenv auditEnvHMACAlgo)
  let prevHash ← readLastAuditHash dir.auditLog
  let (key, dir) ← auditKeyForAppend c call.getenv dir call.random
  let log := { call.entry with prevHash := prevHash, currHash := [] }
  let currHash ← computeAuditHash c key log
  let line := { log with currHash := currHash }.marshal
  .ok { dir with auditLog := some (dir.auditLog.getD [] ++ (line ++ [10])) }

/-- A successful append that signs with this key. -/
def appendUnder (c : Crypto) (k : Str) (dir : HistoryDir) (call : AppendCall) : Option HistoryDir :=
  match auditKeyForAppend c call.getenv dir call.random with
  | .ok (key, _) => if key = k then (appendAuditLog c dir call).toOption else none
  | .error _ => none

/-! ## The records of a log -/

/-- A record with its link and its hash. -/
def AuditLog.sealed (c : Crypto) (k prev : Str) (r : AuditLog) : AuditLog :=
  { r with
    prevHash := prev
    currHash := c.hmac ((hashAlgo r.macAlgo).getD .sha256) k { r with prevHash := prev }.message }

/-- The records that appends of these entries write. -/
def sealedChain (c : Crypto) (k : Str) : Str → List AuditLog → List AuditLog
  | _, [] => []
  | prev, entry :: entries =>
    entry.sealed c k prev :: sealedChain c k (entry.sealed c k prev).currHash entries

/-- The log of the directory consists of the lines of these records. -/
def HistoryDir.Holds (dir : HistoryDir) (records : List AuditLog) : Prop :=
  dir.auditLog.getD [] = lineFile (records.map AuditLog.marshal)

/-- The hash at which a chain of records ends. -/
abbrev lastHash (records : List AuditLog) : Str :=
  HashChain.head AuditLog.currHash auditZeroHash records

/-! ## Reading the end of a log -/

variable {r : AuditLog} {pre text : Str}

/-- The last line of a text, after a newline or at the start. -/
theorem lastLine_append (hpre : pre = [] ∨ ∃ p, pre = p ++ [10]) (hnewline : (10 : UInt8) ∉ text)
    (htext : trimSpace text ≠ []) : lastLine (pre ++ (text ++ [10])) = some (trimSpace text) := by
  have hline : split (text ++ [10]) [10] = [text, []] := by
    rw [split_append_cons, split_of_notMem hnewline]
    rfl
  have hlast : ∃ front, split (pre ++ (text ++ [10])) [10] = front ++ [text, []] := by
    rcases hpre with rfl | ⟨p, rfl⟩
    · exact ⟨[], by rw [nil_append, hline]; rfl⟩
    · refine ⟨split p [10], ?_⟩
      rw [append_assoc, singleton_append, split_append_cons, hline]
  obtain ⟨front, hfront⟩ := hlast
  have hblank : trimSpace [] = [] := rfl
  simp only [lastLine, hfront, reverse_append, reverse_cons, reverse_nil,
    nil_append, cons_append, map_cons, hblank]
  rw [find?_cons_of_neg (by simp), find?_cons_of_pos (by simpa using htext)]

theorem lastLine_record (hpre : pre = [] ∨ ∃ p, pre = p ++ [10]) (hr : r.Written) :
    lastLine (pre ++ (r.marshal ++ [10])) = some r.marshal := by
  have hlast := lastLine_append hpre hr.newline_not_mem
  rw [r.trimSpace_marshal] at hlast
  exact hlast r.marshal_ne_nil

variable {content line : Str}

private theorem lastHashFromTail_of_unmarshal (h : lastLine content = some line)
    (hparse : AuditLog.unmarshal line = none) : lastHashFromTail content = .error .parse := by
  simp only [lastHashFromTail, h, hparse]

private theorem lastHashFromTail_of_lastLine (hr : r.Written)
    (h : lastLine content = some r.marshal) : lastHashFromTail content = .ok r.currHash := by
  have hhash : r.clean.currHash = r.currHash := hr.currHash.validUtf8.coerce_eq
  simp only [lastHashFromTail, h, AuditLog.unmarshal_marshal, hhash, if_neg hr.currHash.ne_nil]

private theorem lineFile_ends (lines : List Str) :
    lineFile lines = [] ∨ ∃ p, lineFile lines = p ++ [10] := by
  rcases eq_nil_or_concat lines with rfl | ⟨front, line, rfl⟩
  · exact Or.inl rfl
  · refine Or.inr ⟨lineFile front ++ line, ?_⟩
    rw [concat_eq_append, lineFile_append, lineFile_singleton, append_assoc]

private theorem drop_ends (hpre : pre = [] ∨ ∃ p, pre = p ++ [10]) (n : ℕ) :
    pre.drop n = [] ∨ ∃ p, pre.drop n = p ++ [10] := by
  rcases hpre with rfl | ⟨p, rfl⟩
  · exact Or.inl (by simp)
  · by_cases hn : n ≤ p.length
    · exact Or.inr ⟨p.drop n, drop_append_of_le_length hn⟩
    · refine Or.inl (drop_eq_nil_of_le ?_)
      rw [length_append, length_singleton]
      omega

/-- A record that fits into the window is its last line. -/
theorem lastLine_tailWindow (hpre : pre = [] ∨ ∃ p, pre = p ++ [10]) (hr : r.Written)
    (hfits : r.marshal.length < 8192) :
    lastLine (tailWindow (pre ++ (r.marshal ++ [10]))) = some r.marshal := by
  have hstart : (pre ++ (r.marshal ++ [10])).length - 8192 ≤ pre.length := by
    simp only [length_append, length_singleton]
    omega
  rw [tailWindow, drop_append_of_le_length hstart]
  exact lastLine_record (drop_ends hpre _) hr

/-- A text that starts inside a record does not parse. -/
private theorem exists_lastLine_suffix (hr : r.Written) {n : ℕ} (hpos : 0 < n)
    (hlt : n < r.marshal.length) :
    ∃ line, lastLine (r.marshal.drop n ++ [10]) = some line ∧ AuditLog.unmarshal line = none := by
  have hne : r.marshal.drop n ≠ [] := by simp [hlt]
  have htake : r.marshal.take n ≠ [] := by
    simp only [ne_eq, take_eq_nil_iff, not_or]
    exact ⟨hpos.ne', r.marshal_ne_nil⟩
  obtain ⟨htrim, hparse⟩ := hr.unmarshal_suffix htake hne (take_append_drop n r.marshal).symm
  have hnewline : (10 : UInt8) ∉ r.marshal.drop n :=
    fun hmem => hr.newline_not_mem (mem_of_mem_drop hmem)
  exact ⟨_, lastLine_append (.inl rfl) hnewline htrim, hparse⟩

/-- A larger one leaves a window that does not parse. -/
theorem exists_lastLine_tailWindow (pre : Str) (hr : r.Written) (hlong : 8192 ≤ r.marshal.length) :
    ∃ line, lastLine (tailWindow (pre ++ (r.marshal ++ [10]))) = some line ∧
      AuditLog.unmarshal line = none := by
  have hlen : (pre ++ (r.marshal ++ [10])).length = pre.length + (r.marshal.length + 1) := by
    simp
  rw [tailWindow, hlen, show pre.length + (r.marshal.length + 1) - 8192
    = pre.length + (r.marshal.length + 1 - 8192) by omega, ← drop_drop,
    drop_left, drop_append_of_le_length (by omega)]
  exact exists_lastLine_suffix hr (by omega) (by omega)

/-- The hash that the next record refers to is the one of the last record, even if that record is
larger than the window that is read first. -/
theorem readLastAuditHash_append (hpre : pre = [] ∨ ∃ p, pre = p ++ [10]) (hr : r.Written) :
    readLastAuditHash (some (pre ++ (r.marshal ++ [10]))) = .ok r.currHash := by
  simp only [readLastAuditHash]
  rw [if_neg (by simp)]
  rcases Nat.lt_or_ge r.marshal.length 8192 with hfits | hlong
  · simp only [lastHashFromTail_of_lastLine hr (lastLine_tailWindow hpre hr hfits)]
  · obtain ⟨line, hline, hparse⟩ := exists_lastLine_tailWindow pre hr hlong
    simp only [lastHashFromTail_of_unmarshal hline hparse,
      lastHashFromTail_of_lastLine hr (lastLine_record hpre hr)]

variable {records : List AuditLog}

/-- The last hash is found at the end of the log. -/
theorem readLastAuditHash_holds (hdir : dir.Holds records) (hwritten : ∀ r ∈ records, r.Written) :
    readLastAuditHash dir.auditLog = .ok (lastHash records) := by
  rcases eq_nil_or_concat records with rfl | ⟨front, r, rfl⟩
  · cases hfile : dir.auditLog with
    | none => rfl
    | some data =>
      rw [HistoryDir.Holds, hfile] at hdir
      obtain rfl : data = [] := hdir
      rfl
  · have hlast : lastHash (front.concat r) = r.currHash := by
      rw [lastHash, concat_eq_append, HashChain.head_append]
      rfl
    rw [HistoryDir.Holds, concat_eq_append, map_append, lineFile_append,
      map_singleton, lineFile_singleton] at hdir
    cases hfile : dir.auditLog with
    | none =>
      rw [hfile] at hdir
      simp at hdir
    | some data =>
      rw [hfile] at hdir
      obtain rfl : data = _ := hdir
      rw [hlast, readLastAuditHash_append (lineFile_ends _) (hwritten r (by simp))]

/-! ## Runs of appends -/

theorem AppendCall.macAlgo_entry (call : AppendCall) :
    call.entry.macAlgo = [] ∨ call.entry.macAlgo = str "sm3" := by
  simp only [AppendCall.entry]
  split
  · exact Or.inr rfl
  · exact Or.inl rfl

variable {prev : Str}

theorem AuditLog.written_sealed (c : Crypto) (k : Str) (hprev : IsHex64 prev)
    (hmac : r.macAlgo = [] ∨ r.macAlgo = str "sm3") : (r.sealed c k prev).Written :=
  ⟨hprev, c.hmac_hex _ _ _, hmac⟩

theorem hashAlgo_eq_some {macAlgo : Str} (h : macAlgo = [] ∨ macAlgo = str "sm3") :
    hashAlgo macAlgo = some ((hashAlgo macAlgo).getD .sha256) := by
  rcases h with rfl | rfl <;> rfl

theorem computeAuditHash_sealed (c : Crypto) (k prev : Str)
    (hmac : r.macAlgo = [] ∨ r.macAlgo = str "sm3") :
    computeAuditHash c k { r with prevHash := prev, currHash := [] } =
      .ok (r.sealed c k prev).currHash := by
  have hcleared := computeAuditHash_cleared c k { r with prevHash := prev }
  simp only at hcleared
  rw [hcleared, hashAlgo_eq_some hmac]
  rfl

variable {dir' : HistoryDir}

theorem auditLog_of_keyForAppend {random : List UInt8}
    (h : auditKeyForAppend c getenv dir random = .ok (key, dir')) :
    dir'.auditLog = dir.auditLog := by
  unfold auditKeyForAppend at h
  repeat' split at h
  all_goals
    cases h
    try rfl

variable {call : AppendCall}

/-- One append under a key adds the sealed record to the log. -/
theorem appendUnder_holds (hdir : dir.Holds records) (hwritten : ∀ r ∈ records, r.Written)
    (h : appendUnder c k dir call = some dir') :
    dir'.Holds (records ++ [call.entry.sealed c k (lastHash records)]) := by
  have hlast := readLastAuditHash_holds hdir hwritten
  have hcompute := computeAuditHash_sealed c k (lastHash records) call.macAlgo_entry
  simp only [appendUnder] at h
  cases hkey : auditKeyForAppend c call.getenv dir call.random with
  | error err => simp [hkey] at h
  | ok p =>
    obtain ⟨key, dir₁⟩ := p
    simp only [hkey] at h
    split_ifs at h with heq
    subst heq
    cases halgo : resolveAuditMACAlgo (call.getenv auditEnvHMACAlgo) with
    | error err => simp [appendAuditLog, halgo, Except.toOption, bind, Except.bind] at h
    | ok algo =>
      have hdir₁ := auditLog_of_keyForAppend hkey
      simp only [appendAuditLog, halgo, hlast, hkey, hcompute, Except.toOption, bind, Except.bind,
        hdir₁, Option.some.injEq] at h
      subst h
      rw [HistoryDir.Holds] at hdir
      simp only [HistoryDir.Holds, map_append, map_singleton, lineFile_append,
        lineFile_singleton, Option.getD_some, hdir]
      rfl

theorem sealedChain_append (c : Crypto) (k prev : Str) (entries more : List AuditLog) :
    sealedChain c k prev (entries ++ more) =
      sealedChain c k prev entries ++
        sealedChain c k (HashChain.head AuditLog.currHash prev
          (sealedChain c k prev entries)) more := by
  induction entries generalizing prev with
  | nil => rfl
  | cons entry entries ih => simp only [cons_append, sealedChain, HashChain.head, ih]

theorem linked_sealedChain (c : Crypto) (k prev : Str) (entries : List AuditLog) :
    HashChain.Linked AuditLog.prevHash AuditLog.currHash prev (sealedChain c k prev entries) := by
  induction entries generalizing prev with
  | nil => trivial
  | cons entry entries ih => exact ⟨rfl, ih _⟩

/-- The records that a list of appends writes. -/
abbrev auditRecords (c : Crypto) (k : Str) (calls : List AppendCall) : List AuditLog :=
  sealedChain c k auditZeroHash (calls.map AppendCall.entry)

variable {calls : List AppendCall}

theorem forall_mem_sealedChain (hprev : IsHex64 prev) {P : AuditLog → Prop} {Q : AppendCall → Prop}
    (h : ∀ (call : AppendCall) p, IsHex64 p → (P (call.entry.sealed c k p) ↔ Q call)) :
    (∀ r ∈ sealedChain c k prev (calls.map AppendCall.entry), P r) ↔ ∀ call ∈ calls, Q call := by
  induction calls generalizing prev with
  | nil => simp [sealedChain]
  | cons call calls ih =>
    have hhex : IsHex64 (call.entry.sealed c k prev).currHash := c.hmac_hex _ _ _
    simp only [map_cons, sealedChain, forall_mem_cons]
    rw [h call prev hprev, ih hhex]

theorem forall_mem_auditRecords {P : AuditLog → Prop}
    (h : ∀ (call : AppendCall) p, IsHex64 p → P (call.entry.sealed c k p)) :
    ∀ r ∈ auditRecords c k calls, P r :=
  (forall_mem_sealedChain isHex64_auditZeroHash (Q := fun _ => True) fun call p hp =>
    iff_of_true (h call p hp) trivial).mpr fun _ _ => trivial

theorem written_auditRecords (c : Crypto) (k : Str) (calls : List AppendCall) :
    ∀ r ∈ auditRecords c k calls, r.Written :=
  forall_mem_auditRecords fun call _ hp => AuditLog.written_sealed c k hp call.macAlgo_entry

/-- A run of appends under a key, from an empty log, leaves the lines of the records of its calls.
-/
theorem run_appendUnder (hdir : dir.Holds [])
    (hrun : Runs.run (appendUnder c k) dir calls = some dir') :
    dir'.Holds (auditRecords c k calls) := by
  induction calls using List.reverseRecOn generalizing dir' with
  | nil =>
    cases hrun
    exact hdir
  | append_singleton calls call ih =>
    obtain ⟨dir₁, hcalls, hone⟩ := Runs.run_append.mp hrun
    obtain ⟨dir₂, hcall, hend⟩ := Runs.run_cons.mp hone
    cases hend
    have hholds := appendUnder_holds (ih hcalls) (written_auditRecords c k calls) hcall
    rw [auditRecords, map_append, sealedChain_append]
    exact hholds

/-! ## Appends under any keys -/

/-- The log consists of the lines of records that appends have written. -/
def HistoryDir.Kept (dir : HistoryDir) : Prop :=
  ∃ records, dir.Holds records ∧ ∀ r ∈ records, r.Written

/-- A successful append adds the record of its call, sealed under some key. -/
theorem HistoryDir.Kept.append (h : dir.Kept) (happend : appendAuditLog c dir call = .ok dir') :
    dir'.Kept ∧ ∃ k prev,
      dir'.auditLog.getD [] =
        dir.auditLog.getD [] ++ ((call.entry.sealed c k prev).marshal ++ [10]) ∧
      readLastAuditHash dir'.auditLog = .ok (call.entry.sealed c k prev).currHash := by
  obtain ⟨records, hdir, hwritten⟩ := h
  have hprev : IsHex64 (lastHash records) := by
    have hmem : lastHash records ∈ auditZeroHash :: records.map AuditLog.currHash :=
      HashChain.head_mem _ _
    rcases mem_cons.mp hmem with hzero | hmem
    · exact hzero ▸ isHex64_auditZeroHash
    · obtain ⟨r, hr, heq⟩ := mem_map.mp hmem
      exact heq ▸ (hwritten r hr).currHash
  cases hkey : auditKeyForAppend c call.getenv dir call.random with
  | error err =>
    rw [appendAuditLog, readLastAuditHash_holds hdir hwritten] at happend
    cases halgo : resolveAuditMACAlgo (call.getenv auditEnvHMACAlgo) <;>
      simp [halgo, hkey, bind, Except.bind] at happend
  | ok found =>
    have hunder : appendUnder c found.1 dir call = some dir' := by
      simp [appendUnder, hkey, happend, Except.toOption]
    have hdir' := appendUnder_holds hdir hwritten hunder
    have hwritten' := forall_mem_append.mpr ⟨hwritten, forall_mem_singleton.mpr
      (AuditLog.written_sealed c found.1 hprev call.macAlgo_entry)⟩
    refine ⟨⟨_, hdir', hwritten'⟩, found.1, lastHash records, ?_, ?_⟩
    · rw [hdir', hdir, map_append, lineFile_append, map_singleton, lineFile_singleton]
    · rw [readLastAuditHash_holds hdir' hwritten', lastHash, HashChain.head_append]
      rfl

/-- After any appends to a new log, whatever keys they use and however large their records are, the
hash that is read back is the one of the record that was appended last. -/
theorem readLastAuditHash_appends {dir₁ dir₂ : HistoryDir} (hdir : dir.Holds [])
    (hrun : Runs.run (fun dir call => (appendAuditLog c dir call).toOption) dir calls = some dir₁)
    (hcall : appendAuditLog c dir₁ call = .ok dir₂) :
    ∃ k prev,
      dir₂.auditLog.getD [] =
        dir₁.auditLog.getD [] ++ ((call.entry.sealed c k prev).marshal ++ [10]) ∧
      readLastAuditHash dir₂.auditLog = .ok (call.entry.sealed c k prev).currHash := by
  have hkept : dir₁.Kept := by
    refine Runs.invariant (fun dir call dir' hkept hstep => ?_) ⟨[], hdir, by simp⟩ hrun
    cases happend : appendAuditLog c dir call with
    | error err => simp [happend, Except.toOption] at hstep
    | ok found =>
      obtain rfl : found = dir' := by simpa [happend, Except.toOption] using hstep
      exact (hkept.append happend).1
  exact (hkept.append hcall).2

/-- An append of an entry with a detail, without any settings. -/
def plainCall (detail : Str) : AppendCall :=
  ⟨{ AuditLog.zero with detail := detail }, fun _ => [], .zero, .zero, [7]⟩

/-- Two appends, the second one of a record that is larger than the window. -/
theorem readLastAuditHash_appends_large :
    ∃ dir₁ dir₂, appendAuditLog Crypto.checked ⟨none, none⟩ (plainCall []) = .ok dir₁ ∧
      appendAuditLog Crypto.checked dir₁ (plainCall (replicate 9000 97)) = .ok dir₂ ∧
      ∃ r : AuditLog, 8192 < r.detail.length ∧
        dir₂.auditLog.getD [] = dir₁.auditLog.getD [] ++ (r.marshal ++ [10]) ∧
        readLastAuditHash dir₂.auditLog = .ok r.currHash := by
  have hok : ((appendAuditLog Crypto.checked ⟨none, none⟩ (plainCall [])).bind fun dir₁ =>
      appendAuditLog Crypto.checked dir₁ (plainCall (replicate 9000 97))).toBool = true := by
    decide +kernel
  have hempty : HistoryDir.Holds ⟨none, none⟩ [] := rfl
  cases hfirst : appendAuditLog Crypto.checked ⟨none, none⟩ (plainCall []) with
  | error err =>
    rw [hfirst] at hok
    cases hok
  | ok dir₁ =>
    rw [hfirst, Except.bind] at hok
    cases hcall : appendAuditLog Crypto.checked dir₁ (plainCall (replicate 9000 97)) with
    | error err =>
      rw [hcall] at hok
      cases hok
    | ok dir₂ =>
      have hrun : Runs.run (fun dir call => (appendAuditLog Crypto.checked dir call).toOption)
          ⟨none, none⟩ [plainCall []] = some dir₁ := by
        simp [Runs.run, hfirst, Except.toOption]
      obtain ⟨k, prev, hlog, hread⟩ := readLastAuditHash_appends hempty hrun hcall
      refine ⟨dir₁, dir₂, rfl, hcall, _, ?_, hlog, hread⟩
      exact length_replicate.symm ▸ (by decide : 8192 < 9000)

/-! ## The key of the chain -/

/-- The hash of a record is the one under this key. -/
def AuditLog.VerifiedBy (c : Crypto) (k : Str) (entry : AuditLog) : Prop :=
  (computeAuditHash c k { entry with currHash := [] }).toOption = some entry.currHash
  deriving Decidable

/-- An append goes on under a key of the last record, or is refused because there is none. -/
def Continues (c : Crypto) (dir : HistoryDir) (call : AppendCall) (entry : AuditLog) : Prop :=
  (∃ k dir', appendUnder c k dir call = some dir' ∧ entry.VerifiedBy c k) ∨
    appendAuditLog c dir call = .error .keyUnavailable

/-- The key for a log whose last record cannot be read: that of the password or of the key file, or
the built-in one. -/
def keyWithoutChain (c : Crypto) (getenv : Str → Str) (dir : HistoryDir) : Except AuditError Str :=
  if getenv auditEnvSecretsPasswd ≠ [] then .ok (c.pbkdf2 (getenv auditEnvSecretsPasswd))
  else (readAuditKeyFile dir).map fun key => key.getD auditDefaultKey

theorem continues_iff {entry : AuditLog} (hlast : readLastAuditHash dir.auditLog = .ok prev)
    (halgo : (resolveAuditMACAlgo (call.getenv auditEnvHMACAlgo)).toBool = true) :
    Continues c dir call entry ↔
      (∃ found, auditKeyForAppend c call.getenv dir call.random = .ok found ∧
        entry.VerifiedBy c found.1) ∨
      auditKeyForAppend c call.getenv dir call.random = .error .keyUnavailable := by
  cases hresolve : resolveAuditMACAlgo (call.getenv auditEnvHMACAlgo) with
  | error err =>
    rw [hresolve] at halgo
    cases halgo
  | ok algo =>
    cases hkey : auditKeyForAppend c call.getenv dir call.random with
    | error err =>
      simp [Continues, appendUnder, appendAuditLog, hresolve, hlast, hkey, bind, Except.bind]
    | ok found =>
      simp [Continues, appendUnder, appendAuditLog, hresolve, hlast, hkey, bind, Except.bind,
        computeAuditHash_sealed c found.1 prev call.macAlgo_entry, Except.toOption]

/-- The key of a last record that is larger than the window is not looked for. -/
theorem auditKeyForAppend_of_long {random : List UInt8} (henv : getenv auditEnvHMACKey = [])
    (hlog : dir.auditLog = some (pre ++ (r.marshal ++ [10]))) (hr : r.Written)
    (hlong : 8192 ≤ r.marshal.length) :
    auditKeyForAppend c getenv dir random =
      (keyWithoutChain c getenv dir).map fun key => (key, dir) := by
  obtain ⟨line, hline, hparse⟩ := exists_lastLine_tailWindow pre hr hlong
  have hrecord : lastAuditRecord dir.auditLog = none := by
    rw [hlog, lastAuditRecord, Option.bind_some, hline, Option.bind_some, hparse]
  have hdata : dir.auditLog.getD [] ≠ [] := by simp [hlog]
  simp only [auditKeyForAppend, chainContinuityKey, hrecord, henv, ne_eq, not_true_eq_false,
    if_false, keyWithoutChain, if_neg hdata]
  by_cases hpasswd : getenv auditEnvSecretsPasswd = []
  · cases hread : readAuditKeyFile dir with
    | error err => simp [hpasswd, Except.map]
    | ok key => cases key <;> simp [hpasswd, Except.map]
  · simp [hpasswd, Except.map]

/-- An append keeps to the key of the last record exactly if that record fits into the window, or
the key that is taken without it happens to be the right one. -/
theorem key_continuity_iff (hlog : dir.auditLog = some (pre ++ (r.marshal ++ [10])))
    (hpre : pre = [] ∨ ∃ p, pre = p ++ [10]) (hr : r.Written)
    (henv : call.getenv auditEnvHMACKey = [])
    (halgo : (resolveAuditMACAlgo (call.getenv auditEnvHMACAlgo)).toBool = true) :
    Continues c dir call r.clean ↔
      r.marshal.length < 8192 ∨
        ∃ k, keyWithoutChain c call.getenv dir = .ok k ∧ r.clean.VerifiedBy c k := by
  rw [continues_iff (hlog ▸ readLastAuditHash_append hpre hr) halgo]
  rcases Nat.lt_or_ge r.marshal.length 8192 with hfits | hlong
  · refine iff_of_true ?_ (.inl hfits)
    have hrecord : lastAuditRecord dir.auditLog = some r.clean := by
      rw [hlog, lastAuditRecord, Option.bind_some, lastLine_tailWindow hpre hr hfits,
        Option.bind_some, AuditLog.unmarshal_marshal]
    have hhash : r.clean.currHash ≠ [] := by
      rw [show r.clean.currHash = r.currHash from hr.currHash.validUtf8.coerce_eq]
      exact hr.currHash.ne_nil
    simp only [auditKeyForAppend, chainContinuityKey, hrecord, henv, ne_eq, not_true_eq_false,
      if_false, if_neg hhash]
    -- the first candidate under which the last record has its hash, or none
    cases hfind : (auditKeyCandidates c call.getenv dir).find? fun key => decide
        ((computeAuditHash c key { r.clean with currHash := [] }).toOption =
          some r.clean.currHash) with
    | none => exact .inr rfl
    | some key =>
      have hmatch := find?_some hfind
      exact .inl ⟨(key, dir), rfl, of_decide_eq_true hmatch⟩
  · rw [auditKeyForAppend_of_long henv hlog hr hlong]
    cases hkey : keyWithoutChain c call.getenv dir with
    | error err =>
      have herr : err ≠ .keyUnavailable := by
        rintro rfl
        unfold keyWithoutChain readAuditKeyFile at hkey
        split_ifs at hkey
        split at hkey
        · cases hkey
        · split_ifs at hkey <;> cases hkey
      simp [Except.map, herr, hlong]
    | ok key => simp [Except.map, hlong]

theorem key_continuity_small :
    let r := AuditLog.zero.sealed Crypto.checked (str "k") auditZeroHash
    Continues Crypto.checked ⟨some ([] ++ (r.marshal ++ [10])), none⟩
      ⟨.zero, fun _ => [], .zero, .zero, []⟩ r.clean :=
  (key_continuity_iff rfl (.inl rfl)
    (AuditLog.written_sealed _ _ isHex64_auditZeroHash (.inl rfl)) rfl rfl).mpr
    (.inl (by decide +kernel))

/-- Codes that depend on the key only. -/
def keyedCrypto : Crypto :=
  { Crypto.checked with
    hmac _ key _ := Crypto.hex64 (Crypto.checksum key)
    hmac_hex _ _ _ := Crypto.isHex64_hex64 _ }

/-- A large record, signed with a key that is not there any more: the next record is signed with the
built-in key. -/
theorem not_key_continuity :
    ∃ r : AuditLog, r.Written ∧
      ¬ Continues keyedCrypto ⟨some ([] ++ (r.marshal ++ [10])), none⟩
        ⟨.zero, fun _ => [], .zero, .zero, []⟩ r.clean := by
  obtain ⟨r, hr, hlong, hother⟩ : ∃ r : AuditLog, r.Written ∧ 8192 ≤ r.marshal.length ∧
      ¬ r.clean.VerifiedBy keyedCrypto auditDefaultKey :=
    ⟨{ AuditLog.zero with detail := List.replicate 8192 97 }.sealed keyedCrypto (str "k")
      auditZeroHash, AuditLog.written_sealed _ _ isHex64_auditZeroHash (.inl rfl),
      by decide +kernel, by decide +kernel⟩
  refine ⟨r, hr, fun h => ?_⟩
  have hread : readLastAuditHash (HistoryDir.mk (some ([] ++ (r.marshal ++ [10]))) none).auditLog =
      .ok r.currHash := readLastAuditHash_append (.inl rfl) hr
  have hfound := (continues_iff hread rfl).mp h
  rw [auditKeyForAppend_of_long rfl rfl hr hlong] at hfound
  rcases hfound with ⟨found, hfound, hverified⟩ | h
  · cases hfound
    exact hother hverified
  · cases h

end History

import Aflare.History.AuditAppend

/-!
# Verifying the audit log

The replay of the hash chain, over the lines of the log file and over records in memory, under every
key that the log may have been signed with.
-/

namespace History

open Go List

/-! ## One record -/

/-- The checks of a record: `.ok false` is a mismatch under this key. -/
def checkRecord (c : Crypto) (secret expectedPrev : Str) (entry : AuditLog) :
    Except AuditError Bool :=
  if entry.prevHash = [] ∧ entry.currHash = [] then .error .legacy
  else if entry.prevHash ≠ expectedPrev then .ok false
  else (computeAuditHash c secret { entry with currHash := [] }).map fun computed =>
    computed = entry.currHash

variable {r : AuditLog}

namespace AuditLog

/-- The hash of a record is the one under this key. -/
def HashedUnder (c : Crypto) (key : Str) (r : AuditLog) : Prop :=
  ∃ algo, hashAlgo r.macAlgo = some algo ∧ r.currHash = c.hmac algo key r.message

end AuditLog

variable {c : Crypto} {key prev : Str}

/-- A record passes if it is linked and hashed under the key. -/
theorem checkRecord_eq_true_iff :
    checkRecord c key prev r = .ok true ↔ r.prevHash = prev ∧ r.HashedUnder c key := by
  unfold checkRecord AuditLog.HashedUnder
  rw [computeAuditHash_cleared]
  constructor
  · intro h
    split_ifs at h with hlegacy hprev
    · cases h
    · cases halgo : hashAlgo r.macAlgo with
      | none => simp [halgo, Except.map] at h
      | some algo =>
        simp only [halgo, Except.map, Except.ok.injEq, decide_eq_true_eq] at h
        exact ⟨not_not.mp hprev, algo, rfl, h.symm⟩
  · rintro ⟨hprev, algo, halgo, hcurr⟩
    have hne : r.currHash ≠ [] := hcurr ▸ (c.hmac_hex _ _ _).ne_nil
    rw [if_neg fun h => hne h.2, if_neg (not_not.mpr hprev)]
    simp [halgo, Except.map, hcurr]

variable {algo : HashAlgo}

theorem checkRecord_ok (c : Crypto) (key prev : Str) (hcurr : r.currHash ≠ [])
    (halgo : hashAlgo r.macAlgo = some algo) : ∃ b, checkRecord c key prev r = .ok b := by
  unfold checkRecord
  rw [computeAuditHash_cleared, if_neg fun h => hcurr h.2]
  split
  · exact ⟨_, rfl⟩
  · simp only [halgo, Except.map]
    exact ⟨_, rfl⟩

/-- A list of records is linked from a hash on, and all of its hashes are the ones under a key. -/
def Replays (c : Crypto) (key prev : Str) (records : List AuditLog) : Prop :=
  HashChain.Linked AuditLog.prevHash AuditLog.currHash prev records ∧
    ∀ r ∈ records, r.HashedUnder c key

theorem replays_nil (c : Crypto) (key prev : Str) : Replays c key prev [] := ⟨trivial, by simp⟩

variable {records : List AuditLog}

theorem replays_cons :
    Replays c key prev (r :: records) ↔
      checkRecord c key prev r = .ok true ∧ Replays c key r.currHash records := by
  simp only [Replays, HashChain.Linked, forall_mem_cons, checkRecord_eq_true_iff]
  tauto

/-! ## Lines -/

/-- The bound of the scanner on the length of a line. -/
def maxAuditLine : ℕ := 1024 * 1024

/-- The result of a replay under one key. -/
structure LineVerdict where
  valid : Bool
  brokenAt : ℕ
  err : Option AuditError
  scanErr : Bool
  deriving DecidableEq, Repr

/-- The replay over lines, from a line number on. At the end the scanner reports a line that is too
long. -/
def verifyLines (c : Crypto) (secret : Str) (tooLong : Bool) :
    Str → ℕ → List Str → LineVerdict
  | _, lineNum, [] =>
    if tooLong then ⟨false, lineNum, some .tooLong, true⟩ else ⟨true, 0, none, false⟩
  | expectedPrev, lineNum, text :: lines =>
    let line := trimSpace text
    if line = [] then verifyLines c secret tooLong expectedPrev (lineNum + 1) lines
    else
      match AuditLog.unmarshal line with
      | none => ⟨false, lineNum + 1, some .parse, true⟩
      | some entry =>
        match checkRecord c secret expectedPrev entry with
        | .error err => ⟨false, lineNum + 1, some err, true⟩
        | .ok false => ⟨false, lineNum + 1, none, false⟩
        | .ok true => verifyLines c secret tooLong entry.currHash (lineNum + 1) lines

def verifyAuditLines (c : Crypto) (data secret : Str) : LineVerdict :=
  verifyLines c secret (scan maxAuditLine data).2 auditZeroHash 0 (scan maxAuditLine data).1

/-- What `VerifyAuditChain` returns. -/
structure ChainVerdict where
  valid : Bool
  brokenAt : ℕ
  err : Option AuditError
  deriving DecidableEq, Repr

def ChainVerdict.intact : ChainVerdict := ⟨true, 0, none⟩

/-- The replay under one key after the other, up to the first one that decides. -/
def verifyUnderKeys (replay : Str → LineVerdict) (candidates : List Str) : ChainVerdict :=
  match (candidates.map replay).find? fun res => res.valid || res.scanErr with
  | some res => if res.valid then .intact else ⟨false, res.brokenAt, res.err⟩
  | none =>
    match candidates.map replay with
    | res :: _ => ⟨false, res.brokenAt, res.err⟩
    | [] => ⟨false, 0, some .noCandidates⟩

/-- `VerifyAuditChain`, of the log in the history directory. -/
def verifyAuditChain (c : Crypto) (getenv : Str → Str) (dir : HistoryDir) : ChainVerdict :=
  match dir.auditLog with
  | none => .intact
  | some data => verifyUnderKeys (verifyAuditLines c data) (auditKeyCandidates c getenv dir)

variable {candidates : List Str}

/-- Without an error that no key can mend, a chain is intact if it is under some key. -/
theorem verifyUnderKeys_eq_intact_iff {replay : Str → LineVerdict}
    (h : ∀ key ∈ candidates, (replay key).scanErr = true → ∀ key' ∈ candidates,
      (replay key').valid = false) :
    verifyUnderKeys replay candidates = .intact ↔
      ∃ key ∈ candidates, (replay key).valid = true := by
  unfold verifyUnderKeys
  constructor
  · intro hintact
    split at hintact
    · rename_i res hres
      split_ifs at hintact with hvalid
      · obtain ⟨key, hkey, rfl⟩ := mem_map.mp (mem_of_find?_eq_some hres)
        exact ⟨key, hkey, hvalid⟩
      · cases hintact
    · split at hintact <;> cases hintact
  · rintro ⟨key, hkey, hvalid⟩
    split
    · rename_i res hres
      have hdecides := find?_some hres
      obtain ⟨key', hkey', rfl⟩ := mem_map.mp (mem_of_find?_eq_some hres)
      by_cases hvalid' : (replay key').valid = true
      · rw [if_pos hvalid']
      · -- the first key that decides met an error, but then no key succeeds
        simp only [Bool.or_eq_true] at hdecides
        have hscan := hdecides.resolve_left hvalid'
        rw [h key' hkey' hscan key hkey] at hvalid
        cases hvalid
    · rename_i hnone
      have hno := find?_eq_none.mp hnone (replay key) (mem_map_of_mem hkey)
      simp [hvalid] at hno

/-! ## The replay over a log of written records -/

/-- The replay over the lines of written records, by what is read back of the records. -/
theorem verifyLines_written (c : Crypto) (key : Str) (tooLong : Bool)
    (hwritten : ∀ r ∈ records, r.Written) (prev : Str) (n : ℕ) :
    let res := verifyLines c key tooLong prev n (records.map AuditLog.marshal)
    (res.valid = true ↔ tooLong = false ∧ Replays c key prev (records.map AuditLog.clean)) ∧
      (res.scanErr = true → tooLong = true) := by
  induction records generalizing prev n with
  | nil => cases tooLong <;> simp [verifyLines, replays_nil]
  | cons r records ih =>
    have hr := hwritten r mem_cons_self
    have hcurr : r.clean.currHash = r.currHash := hr.currHash.validUtf8.coerce_eq
    have hmac : r.clean.macAlgo = r.macAlgo := hr.validUtf8_macAlgo.coerce_eq
    have hne : r.clean.currHash ≠ [] := hcurr ▸ hr.currHash.ne_nil
    obtain ⟨b, hcheck⟩ := checkRecord_ok c key prev hne (hmac ▸ hashAlgo_eq_some hr.macAlgo)
    have hrest := ih (forall_mem_of_forall_mem_cons hwritten) r.clean.currHash (n + 1)
    simp only [map_cons, verifyLines, r.trimSpace_marshal, if_neg r.marshal_ne_nil,
      AuditLog.unmarshal_marshal, hcheck, replays_cons]
    cases b with
    | false => simp
    | true => simpa using hrest

/-- The scanner gives the lines of written records before the first one that is too long. -/
theorem scan_written (hwritten : ∀ r ∈ records, r.Written) :
    (scan maxAuditLine (lineFile (records.map AuditLog.marshal))).1 =
        (records.takeWhile fun r => r.marshal.length < maxAuditLine).map AuditLog.marshal ∧
      ((scan maxAuditLine (lineFile (records.map AuditLog.marshal))).2 = false ↔
        ∀ r ∈ records, r.marshal.length < maxAuditLine) := by
  have hnewline : ∀ line ∈ records.map AuditLog.marshal, (10 : UInt8) ∉ line := by
    intro line hline
    obtain ⟨r, hr, rfl⟩ := mem_map.mp hline
    exact (hwritten r hr).newline_not_mem
  constructor
  · simp only [scan, fileLines_lineFile hnewline, takeWhile_map, map_map]
    exact map_congr_left fun r _ => r.dropCR_marshal
  · simp [scan, fileLines_lineFile hnewline]

/-- The replay over a file of written records. -/
theorem verifyAuditLines_written (hwritten : ∀ r ∈ records, r.Written) (key : Str) :
    let res := verifyAuditLines c (lineFile (records.map AuditLog.marshal)) key
    (res.valid = true ↔ (∀ r ∈ records, r.marshal.length < maxAuditLine) ∧
        Replays c key auditZeroHash (records.map AuditLog.clean)) ∧
      (res.scanErr = true → ¬ ∀ r ∈ records, r.marshal.length < maxAuditLine) := by
  obtain ⟨hlines, hlong⟩ := scan_written hwritten
  obtain ⟨hvalid, hscan⟩ := verifyLines_written c key
    (scan maxAuditLine (lineFile (records.map AuditLog.marshal))).2
    (fun r hr => hwritten r ((takeWhile_sublist _).subset hr)) auditZeroHash 0
  rw [← hlines] at hvalid hscan
  rw [hlong] at hvalid
  refine ⟨hvalid.trans (and_congr_right fun hshort => ?_), fun herr hshort => ?_⟩
  · rw [takeWhile_eq_self_iff.mpr fun r hr => by simpa using hshort r hr]
  · exact absurd (hscan herr) (by simp [hlong.mpr hshort])

/-- When a log of written records is accepted: no line is too long, and what is read back of the
records passes under one of the keys. -/
theorem verifyAuditChain_holds_iff {getenv : Str → Str} {dir : HistoryDir}
    (hdir : dir.Holds records) (hwritten : ∀ r ∈ records, r.Written) :
    verifyAuditChain c getenv dir = .intact ↔
      (∀ r ∈ records, r.marshal.length < maxAuditLine) ∧
        ∃ key ∈ auditKeyCandidates c getenv dir,
          Replays c key auditZeroHash (records.map AuditLog.clean) := by
  unfold verifyAuditChain
  cases hfile : dir.auditLog with
  | none =>
    have hnil : records = [] := by
      rw [HistoryDir.Holds, hfile] at hdir
      cases records with
      | nil => rfl
      | cons r records => simp [lineFile] at hdir
    subst hnil
    simp only [not_mem_nil, false_implies, implies_true, true_and, true_iff]
    exact ⟨_, auditDefaultKey_mem c getenv dir, replays_nil _ _ _⟩
  | some data =>
    rw [HistoryDir.Holds, hfile] at hdir
    obtain rfl : data = lineFile (records.map AuditLog.marshal) := hdir
    have hreplay := fun key => verifyAuditLines_written (c := c) hwritten key
    rw [verifyUnderKeys_eq_intact_iff]
    · simp only [(hreplay _).1]
      tauto
    · intro key _ hscan key' _
      by_contra hvalid
      exact (hreplay key).2 hscan ((hreplay key').1.mp (by simpa using hvalid)).1

/-! ## Logs that were written by appends -/

private theorem escapeAscii_isHex : ∀ n < 256, isHex (UInt8.ofNat n) = true →
    escapeAscii (UInt8.ofNat n) = [UInt8.ofNat n] := by
  decide +kernel

theorem escape_isHex64 {s : Str} (h : IsHex64 s) : escape s = s := by
  refine Plain.escape_eq fun b hb => ⟨isHex_lt (h.2 b hb), ?_⟩
  have hascii := escapeAscii_isHex b.toNat b.toNat_lt
  rw [UInt8.ofNat_toNat] at hascii
  exact hascii (h.2 b hb)

private theorem omitLength_isHex64 {s s' : Str} (name : Str) (h : IsHex64 s)
    (h' : IsHex64 s') : omitLength name s = omitLength name s' := by
  simp only [omitLength, omitEmpty, if_neg h.ne_nil, if_neg h'.ne_nil, map_cons, map_nil,
    memberLength, Value.render, quote, escape_isHex64 h, escape_isHex64 h', length_cons,
    length_append, h.1, h'.1]

namespace AuditLog

theorem length_marshal_hashes {p q p' q' : Str} (hp : IsHex64 p) (hq : IsHex64 q) (hp' : IsHex64 p')
    (hq' : IsHex64 q') : { r with prevHash := p, currHash := q }.marshal.length =
      { r with prevHash := p', currHash := q' }.marshal.length := by
  simp only [length_marshal, omitLength_isHex64 (str "prev_hash") hp hp',
    omitLength_isHex64 (str "curr_hash") hq hq']

theorem keepsText_hashes (p q : Str) :
    { r with prevHash := p, currHash := q }.KeepsText ↔ r.KeepsText :=
  ⟨fun h => { h with }, fun h => { h with }⟩

theorem Written.message_clean_iff (h : r.Written) : r.clean.message = r.message ↔ r.KeepsText := by
  have hprev : r.clean.prevHash = r.prevHash := h.prevHash.validUtf8.coerce_eq
  have hcleared : r.clean.message = r.prevHash ++ { r with currHash := [] }.clean.marshal :=
    congrArg (· ++ { r with currHash := [] }.clean.marshal) hprev
  have hmarshal := marshal_clean_iff (r := { r with currHash := [] }) h.prevHash.validUtf8
    validUtf8_nil h.validUtf8_macAlgo
  rw [hcleared, message, append_cancel_left_eq]
  exact hmarshal.trans (keepsText_hashes r.prevHash [])

theorem Written.linked_clean (h : ∀ r ∈ records, r.Written) :
    HashChain.Linked AuditLog.prevHash AuditLog.currHash prev (records.map clean) ↔
      HashChain.Linked AuditLog.prevHash AuditLog.currHash prev records :=
  HashChain.linked_map fun r hr =>
    ⟨(h r hr).prevHash.validUtf8.coerce_eq, (h r hr).currHash.validUtf8.coerce_eq⟩

theorem Written.hashedUnder_clean_iff (h : r.Written) :
    r.clean.HashedUnder c key ↔
      ∃ algo, hashAlgo r.macAlgo = some algo ∧ r.currHash = c.hmac algo key r.clean.message := by
  have hcurr : r.clean.currHash = r.currHash := h.currHash.validUtf8.coerce_eq
  have hmac : r.clean.macAlgo = r.macAlgo := h.validUtf8_macAlgo.coerce_eq
  rw [HashedUnder, hcurr, hmac]

end AuditLog

variable {k : Str}

theorem hashedUnder_auditRecords (c : Crypto) (k : Str) (calls : List AppendCall) :
    ∀ r ∈ auditRecords c k calls, r.HashedUnder c k :=
  forall_mem_auditRecords fun call _ _ => ⟨_, hashAlgo_eq_some call.macAlgo_entry, rfl⟩

/-- The length of the line that a call writes. -/
def AppendCall.lineLength (call : AppendCall) : ℕ :=
  { call.entry with prevHash := auditZeroHash, currHash := auditZeroHash }.marshal.length

/-- The record of a call has texts that JSON keeps, and its line fits the scanner. -/
def AppendCall.Storable (call : AppendCall) : Prop :=
  call.entry.KeepsText ∧ call.lineLength < maxAuditLine
  deriving Decidable

/-- A log that was written by appends under one key is accepted exactly if every record is
storable, whatever the appends before and after it are. The hypothesis on collisions is void where
the messages agree. -/
theorem verify_after_appends_iff {c : Crypto} {k : Str} {dir dir' : HistoryDir}
    {calls : List AppendCall} {getenv : Str → Str} (hempty : dir.auditLog.getD [] = [])
    (hrun : Runs.run (appendUnder c k) dir calls = some dir')
    (hkey : k ∈ auditKeyCandidates c getenv dir')
    (hfree : ∀ key ∈ auditKeyCandidates c getenv dir', ∀ r ∈ auditRecords c k calls, ∀ algo,
      c.hmac algo key r.clean.message = c.hmac algo k r.message → r.clean.message = r.message) :
    verifyAuditChain c getenv dir' = .intact ↔ ∀ call ∈ calls, call.Storable := by
  have hwritten := written_auditRecords c k calls
  have hhashed := hashedUnder_auditRecords c k calls
  have hlinked := linked_sealedChain c k auditZeroHash (calls.map AppendCall.entry)
  have hkeeps : (∀ r ∈ auditRecords c k calls, r.KeepsText) ↔
      ∀ call ∈ calls, call.entry.KeepsText :=
    forall_mem_sealedChain isHex64_auditZeroHash fun _ _ _ => AuditLog.keepsText_hashes _ _
  have hfits : (∀ r ∈ auditRecords c k calls, r.marshal.length < maxAuditLine) ↔
      ∀ call ∈ calls, call.lineLength < maxAuditLine := by
    have hlength : ∀ (call : AppendCall) (p : Str), IsHex64 p →
        (call.entry.sealed c k p).marshal.length = call.lineLength :=
      fun call p hp => AuditLog.length_marshal_hashes hp (c.hmac_hex _ _ _) isHex64_auditZeroHash
        isHex64_auditZeroHash
    refine forall_mem_sealedChain isHex64_auditZeroHash fun call p hp => ?_
    rw [hlength call p hp]
  rw [verifyAuditChain_holds_iff (run_appendUnder hempty hrun) hwritten, hfits]
  constructor
  · rintro ⟨hshort, key, hcandidate, hreplays⟩
    -- the hash that was recomputed equals the one of the record, so nothing was changed
    have hkept : ∀ r ∈ auditRecords c k calls, r.KeepsText := by
      intro r hr
      obtain ⟨algo, halgo, hcurr⟩ := hhashed r hr
      obtain ⟨algo', halgo', hcurr'⟩ := (hwritten r hr).hashedUnder_clean_iff.mp
        (hreplays.2 r.clean (mem_map_of_mem hr))
      obtain rfl := Option.some.inj (halgo.symm.trans halgo')
      exact (hwritten r hr).message_clean_iff.mp
        (hfree key hcandidate r hr algo (hcurr'.symm.trans hcurr))
    exact fun call hcall => ⟨hkeeps.mp hkept call hcall, hshort call hcall⟩
  · intro hstorable
    refine ⟨fun call hcall => (hstorable call hcall).2, k, hkey,
      (AuditLog.Written.linked_clean hwritten).mpr hlinked, ?_⟩
    intro r' hr'
    obtain ⟨r, hr, rfl⟩ := mem_map.mp hr'
    have hkept := hkeeps.mpr (fun call hcall => (hstorable call hcall).1) r hr
    rw [(hwritten r hr).hashedUnder_clean_iff, (hwritten r hr).message_clean_iff.mpr hkept]
    exact hhashed r hr

/-- An environment with an explicit key and an algorithm. -/
def sampleEnv (algo : Str) (name : Str) : Str :=
  if name = auditEnvHMACKey then str "secret"
  else if name = auditEnvHMACAlgo then algo
  else []

def sampleClock : ZonedTime where
  clock := str "2026-03-01T09:00:00"
  frac := []
  offset := 0
  isClock := by decide
  isFraction := ZonedTime.zero.isFraction
  offset_lt := ZonedTime.zero.offset_lt

/-- A record with some detail, to be appended under an algorithm. -/
def sampleCall (algo detail : Str) : AppendCall where
  log := { AuditLog.zero with action := str "workflow.run", detail := detail, success := true }
  getenv := sampleEnv algo
  nowID := sampleClock
  now := sampleClock
  random := []

/-- Two appends, the second one with the other algorithm. -/
theorem verify_after_two_appends :
    ∃ dir', Runs.run (appendUnder Crypto.checked (str "secret")) ⟨none, none⟩
        [sampleCall [] (str "first"), sampleCall (str "sm3") (str "second")] = some dir' ∧
      verifyAuditChain Crypto.checked (sampleEnv []) dir' = .intact := by
  obtain ⟨dir', hrun⟩ : ∃ dir', Runs.run (appendUnder Crypto.checked (str "secret")) ⟨none, none⟩
      [sampleCall [] (str "first"), sampleCall (str "sm3") (str "second")] = some dir' :=
    Option.isSome_iff_exists.mp (by decide +kernel)
  have hkept : ∀ r ∈ auditRecords Crypto.checked (str "secret")
      [sampleCall [] (str "first"), sampleCall (str "sm3") (str "second")], r.KeepsText := by
    decide
  refine ⟨dir', hrun, (verify_after_appends_iff rfl hrun (explicit_mem _ _ (by decide)) ?_).mpr
    (by decide +kernel)⟩
  intro key _ r hr algo _
  exact (written_auditRecords _ _ _ r hr).message_clean_iff.mpr (hkept r hr)

/-- A byte that is not UTF-8 in the detail of a record is written as an escape and read back as
another character, which is written as it is. -/
theorem not_verified_invalid_detail :
    ∃ dir', Runs.run (appendUnder Crypto.checked (str "secret")) ⟨none, none⟩
        [sampleCall [] [0xFF]] = some dir' ∧
      str "secret" ∈ auditKeyCandidates Crypto.checked (sampleEnv []) dir' ∧
      verifyAuditChain Crypto.checked (sampleEnv []) dir' ≠ .intact := by
  have hcalls : Runs.run (appendUnder Crypto.checked (str "secret")) ⟨none, none⟩
      [sampleCall [] [0xFF]] = some ⟨some (lineFile
        ((auditRecords Crypto.checked (str "secret") [sampleCall [] [0xFF]]).map AuditLog.marshal)),
        none⟩ := by
    decide +kernel
  refine ⟨_, hcalls, explicit_mem _ _ (by decide), fun hintact => ?_⟩
  have hempty : HistoryDir.Holds ⟨none, none⟩ [] := rfl
  obtain ⟨-, key, hkey, hreplays⟩ := (verifyAuditChain_holds_iff (run_appendUnder hempty hcalls)
    (written_auditRecords _ _ _)).mp hintact
  -- neither the explicit key nor the built-in one gives the hash that was written
  have hcheck : ∀ key ∈ auditKeyCandidates Crypto.checked (sampleEnv []) ⟨none, none⟩,
      checkRecord Crypto.checked key auditZeroHash
        ((sampleCall [] [0xFF]).entry.sealed Crypto.checked (str "secret") auditZeroHash).clean ≠
          .ok true := by
    decide +kernel
  exact hcheck key hkey (replays_cons.mp hreplays).1

/-! ## Records in memory -/

/-- The replay over records under one key, from a position on: the position of the first broken
record, counted from one, or zero. -/
def replayRecords (c : Crypto) (secret : Str) :
    Str → ℕ → List AuditLog → Except (ℕ × AuditError) ℕ
  | _, _, [] => .ok 0
  | expectedPrev, i, entry :: records =>
    match checkRecord c secret expectedPrev entry with
    | .error err => .error (i + 1, err)
    | .ok false => .ok (i + 1)
    | .ok true => replayRecords c secret entry.currHash (i + 1) records

/-- The replay under the keys that are left, after a first mismatch or none. -/
def replayUnderKeys (replay : Str → Except (ℕ × AuditError) ℕ) :
    Option ℕ → List Str → ChainVerdict
  | none, [] => .intact
  | some broken, [] => ⟨false, broken, none⟩
  | firstMismatch, secret :: secrets =>
    match replay secret with
    | .error (i, err) => ⟨false, i, some err⟩
    | .ok 0 => .intact
    | .ok broken => replayUnderKeys replay (firstMismatch.or (some broken)) secrets

def verifyAuditRecordChainFrom (c : Crypto) (candidates : List Str) (records : List AuditLog)
    (firstExpectedPrev : Str) : ChainVerdict :=
  replayUnderKeys (fun secret => replayRecords c secret firstExpectedPrev 0 records) none candidates

theorem replayRecords_eq_zero_iff {i : ℕ} :
    replayRecords c key prev i records = .ok 0 ↔ Replays c key prev records := by
  induction records generalizing prev i with
  | nil => simp [replayRecords, replays_nil]
  | cons r records ih =>
    rw [replays_cons, replayRecords]
    split
    · rename_i hcheck
      simp [hcheck]
    · rename_i hcheck
      simp [hcheck]
    · rename_i hcheck
      simp [hcheck, ih]

theorem replayRecords_ok {i : ℕ} (h : ∀ r ∈ records, ∃ k, r.HashedUnder c k) :
    ∃ n, replayRecords c key prev i records = .ok n := by
  induction records generalizing prev i with
  | nil => exact ⟨0, rfl⟩
  | cons r records ih =>
    obtain ⟨k, algo, halgo, hcurr⟩ := h r mem_cons_self
    obtain ⟨b, hcheck⟩ := checkRecord_ok c key prev (hcurr ▸ (c.hmac_hex _ _ _).ne_nil) halgo
    simp only [replayRecords, hcheck]
    cases b with
    | false => exact ⟨_, rfl⟩
    | true => exact ih (forall_mem_of_forall_mem_cons h)

variable {replay : Str → Except (ℕ × AuditError) ℕ} {secrets : List Str} {first : Option ℕ}

private theorem replayUnderKeys_sound (hne : secrets ≠ [] ∨ first.isSome = true)
    (h : replayUnderKeys replay first secrets = .intact) : ∃ key ∈ secrets, replay key = .ok 0 := by
  induction secrets generalizing first with
  | nil =>
    cases first with
    | none => exact absurd hne (by simp)
    | some broken => cases h
  | cons secret secrets ih =>
    rw [replayUnderKeys] at h
    split at h
    · cases h
    · rename_i hok
      exact ⟨secret, mem_cons_self, hok⟩
    · obtain ⟨key, hkey, hok⟩ := ih (Or.inr (by cases first <;> rfl)) h
      exact ⟨key, mem_cons_of_mem _ hkey, hok⟩

private theorem replayUnderKeys_complete (herr : ∀ key, ∃ n, replay key = .ok n)
    (hkey : key ∈ secrets) (hok : replay key = .ok 0) :
    replayUnderKeys replay first secrets = .intact := by
  induction secrets generalizing first with
  | nil => cases hkey
  | cons secret secrets ih =>
    obtain ⟨n, hn⟩ := herr secret
    cases n with
    | zero => simp [replayUnderKeys, hn]
    | succ n =>
      rcases mem_cons.mp hkey with rfl | hkey
      · rw [hok] at hn
        cases hn
      · simp only [replayUnderKeys, hn]
        exact ih hkey

theorem verifyAuditRecordChainFrom_iff (hne : candidates ≠ []) :
    verifyAuditRecordChainFrom c candidates records prev = .intact ↔
      ∃ key ∈ candidates, Replays c key prev records := by
  constructor
  · intro h
    obtain ⟨key, hkey, hok⟩ := replayUnderKeys_sound (Or.inl hne) h
    exact ⟨key, hkey, replayRecords_eq_zero_iff.mp hok⟩
  · rintro ⟨key, hkey, hreplays⟩
    refine replayUnderKeys_complete (fun key' => ?_) hkey (replayRecords_eq_zero_iff.mpr hreplays)
    exact replayRecords_ok fun r hr => ⟨key, hreplays.2 r hr⟩

/-! ## Tampering -/

/-- The uses of a hash function that the records make under these keys. -/
def macUses (keys : List Str) (records : List AuditLog) : List (HashAlgo × Str × Str) :=
  records.flatMap fun r => keys.filterMap fun key =>
    (hashAlgo r.macAlgo).map fun algo => (algo, key, r.message)

variable {keys : List Str}

theorem mem_macUses (hr : r ∈ records) (hkey : key ∈ keys)
    (halgo : hashAlgo r.macAlgo = some algo) : (algo, key, r.message) ∈ macUses keys records := by
  refine mem_flatMap.mpr ⟨r, hr, mem_filterMap.mpr ⟨key, hkey, ?_⟩⟩
  rw [halgo, Option.map_some]

variable {r' : AuditLog}

theorem message_eq_of_currHash_eq (hinj : c.InjectiveOn (macUses keys records)) {key' : Str}
    (hr : r ∈ records) (hr' : r' ∈ records) (hkey : key ∈ keys) (hkey' : key' ∈ keys)
    (h : r.HashedUnder c key) (h' : r'.HashedUnder c key') (heq : r.currHash = r'.currHash) :
    r.message = r'.message := by
  obtain ⟨algo, halgo, hcurr⟩ := h
  obtain ⟨algo', halgo', hcurr'⟩ := h'
  have huse := hinj _ (mem_macUses hr hkey halgo) _ (mem_macUses hr' hkey' halgo')
    (by rw [← hcurr, ← hcurr', heq])
  exact congrArg (fun u => u.2.2) huse

theorem marshal_eq_of_message_eq (hprev : IsHex64 r.prevHash)
    (hprev' : IsHex64 r'.prevHash) (h : r.message = r'.message) :
    r.prevHash = r'.prevHash ∧
      { r with currHash := [] }.marshal = { r' with currHash := [] }.marshal :=
  append_inj h (by rw [hprev.1, hprev'.1])

theorem eq_of_message_eq (hprev : IsHex64 r.prevHash)
    (hprev' : IsHex64 r'.prevHash) (h : r.message = r'.message) (hcurr : r.currHash = r'.currHash)
    (hhidden : r.hidden = r'.hidden) : r = r' := by
  obtain ⟨-, hmarshal⟩ := marshal_eq_of_message_eq hprev hprev' h
  have hcleared : { r with currHash := [] } = { r' with currHash := [] } := by
    refine AuditLog.eq_of_marshal_eq hmarshal ?_
    simp only [AuditLog.hidden, map_cons, map_nil, Prod.mk.injEq, List.cons.injEq] at hhidden ⊢
    tauto
  cases r
  cases r'
  simp only [AuditLog.mk.injEq] at hcleared hcurr ⊢
  tauto

theorem sealed_auditRecords {calls : List AppendCall} (hkey : k ∈ keys)
    (hinj : c.InjectiveOn (macUses keys (auditRecords c k calls ++ records)))
    (hgenesis : ∀ r ∈ auditRecords c k calls, r.currHash ≠ auditZeroHash) :
    HashChain.Sealed AuditLog.prevHash AuditLog.currHash auditZeroHash
      (auditRecords c k calls) where
  linked := linked_sealedChain c k auditZeroHash _
  tag_link r hr r' hr' heq := by
    have hwritten := written_auditRecords c k calls
    have hhashed := hashedUnder_auditRecords c k calls
    have hmessage := message_eq_of_currHash_eq hinj (mem_append_left _ hr)
      (mem_append_left _ hr') hkey hkey (hhashed r hr) (hhashed r' hr') heq
    exact (marshal_eq_of_message_eq (hwritten r hr).prevHash (hwritten r' hr').prevHash hmessage).1
  root_fresh := hgenesis

/-- A list of records that is accepted from the genesis hash on, and whose hashes all belong to a
log that was written by appends under a key, is a beginning of that log exactly if it agrees with
the log in what the lines do not show. -/
theorem accepted_prefix_iff {c : Crypto} {k : Str} {dir dir' : HistoryDir} {calls : List AppendCall}
    {records : List AuditLog} {keys : List Str} (hempty : dir.auditLog.getD [] = [])
    (hrun : Runs.run (appendUnder c k) dir calls = some dir') (hkey : k ∈ keys)
    (hinj : c.InjectiveOn (macUses keys (auditRecords c k calls ++ records)))
    (hgenesis : ∀ r ∈ auditRecords c k calls, r.currHash ≠ auditZeroHash)
    (haccepted : verifyAuditRecordChainFrom c keys records auditZeroHash = .intact)
    (hproduced : ∀ r ∈ records, r.currHash ∈ (auditRecords c k calls).map AuditLog.currHash) :
    dir'.Holds (auditRecords c k calls) ∧
      (records <+: auditRecords c k calls ↔
        ∀ p ∈ records.zip (auditRecords c k calls), p.1.hidden = p.2.hidden) := by
  refine ⟨run_appendUnder hempty hrun, ?_⟩
  have hsealed := sealed_auditRecords hkey hinj hgenesis
  have hwritten := written_auditRecords c k calls
  have hhashed := hashedUnder_auditRecords c k calls
  obtain ⟨key, hcandidate, hlinked, hunder⟩ :=
    (verifyAuditRecordChainFrom_iff (ne_nil_of_mem hkey)).mp haccepted
  generalize auditRecords c k calls = log at *
  -- the links of an accepted list are hashes of the log too
  have hprev : ∀ r ∈ records, IsHex64 r.prevHash := by
    intro r hr
    rcases mem_cons.mp (hlinked.link_mem hr) with hzero | hmem
    · rw [hzero]
      exact isHex64_auditZeroHash
    · obtain ⟨r', hr', heq⟩ := mem_map.mp hmem
      obtain ⟨s, hs, hseq⟩ := mem_map.mp (hproduced r' hr')
      rw [← heq, ← hseq]
      exact (hwritten s hs).currHash
  have hmessage : ∀ r ∈ records, ∀ s ∈ log, r.currHash = s.currHash → r.message = s.message :=
    fun r hr s hs heq => message_eq_of_currHash_eq hinj (mem_append_right _ hr)
      (mem_append_left _ hs) hcandidate hkey (hunder r hr) (hhashed s hs) heq
  have hpairs := hsealed.take_of_linked hlinked fun r hr => by
    obtain ⟨s, hs, heq⟩ := mem_map.mp (hproduced r hr)
    have hlink := marshal_eq_of_message_eq (hprev r hr) (hwritten s hs).prevHash
      (hmessage r hr s hs heq.symm)
    exact ⟨s, hs, heq, hlink.1.symm⟩
  obtain ⟨hlength, htags⟩ := List.forall₂_iff_zip.mp hpairs
  have hzip : records.zip log = records.zip (log.take records.length) := by
    have hall : (records.zip log).take records.length = records.zip log :=
      take_of_length_le (by simp)
    rw [← hall, zip, take_zipWith, take_length]
  have hbeginning : records <+: log ↔ List.Forall₂ (· = ·) records (log.take records.length) := by
    rw [List.forall₂_eq_eq_eq]
    exact prefix_iff_eq_take
  rw [hbeginning, List.forall₂_iff_zip, hzip]
  constructor
  · rintro ⟨-, hequal⟩ p hp
    rw [hequal hp]
  · intro hhidden
    refine ⟨hlength, fun {r s} hp => ?_⟩
    obtain ⟨hr, hs⟩ := of_mem_zip hp
    have hs := mem_of_mem_take hs
    exact eq_of_message_eq (hprev r hr) (hwritten s hs).prevHash
      (hmessage r hr s hs (htags hp)) (htags hp) (hhidden (r, s) hp)

/-- Three appends, two of them with the same detail. -/
def sampleCalls : List AppendCall :=
  [sampleCall [] (str "first"), sampleCall [] (str "next"), sampleCall [] (str "first")]

/-- The first two records of three appends. -/
theorem accepted_prefix_two :
    (auditRecords Crypto.checked (str "secret") sampleCalls).take 2 <+:
      auditRecords Crypto.checked (str "secret") sampleCalls := by
  obtain ⟨dir', hrun⟩ : ∃ dir', Runs.run (appendUnder Crypto.checked (str "secret")) ⟨none, none⟩
      sampleCalls = some dir' := Option.isSome_iff_exists.mp (by decide +kernel)
  have hkey : str "secret" ∈ [str "secret"] := by decide
  exact (accepted_prefix_iff rfl hrun hkey (by decide +kernel) (by decide +kernel)
    (by decide +kernel) (by decide +kernel)).2.mpr (by decide +kernel)

/-- Two stray bytes are written in the same way, so that one can be put in the place of the
other. -/
theorem not_accepted_prefix_stray_byte :
    ∃ dir', Runs.run (appendUnder Crypto.checked (str "secret")) ⟨none, none⟩
        [sampleCall [] [0xFF]] = some dir' ∧
      let log := auditRecords Crypto.checked (str "secret") [sampleCall [] [0xFF]]
      let records := log.map fun r => { r with detail := [0xFE] }
      Crypto.checked.InjectiveOn (macUses (auditKeyCandidates Crypto.checked (sampleEnv []) dir')
        (log ++ records)) ∧
      (∀ r ∈ log, r.currHash ≠ auditZeroHash) ∧
      verifyAuditRecordChainFrom Crypto.checked
        (auditKeyCandidates Crypto.checked (sampleEnv []) dir') records auditZeroHash = .intact ∧
      (∀ r ∈ records, r.currHash ∈ log.map AuditLog.currHash) ∧
      ¬ records <+: log := by
  refine ⟨⟨some (lineFile ((auditRecords Crypto.checked (str "secret")
    [sampleCall [] [0xFF]]).map AuditLog.marshal)), none⟩, by decide +kernel, ?_⟩
  decide +kernel

end History

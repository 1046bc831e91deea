import Aflare.Go.JsonEqual
import Aflare.History.AuditVerify

/-!
# Audit bundles

The signed export of audit records. The signature covers the version, the creation time, the head
hash and the manifest, and the manifest has a digest of the records; the number of records and
their time range at the top of the bundle are covered by nothing.
-/

namespace History

open Go List

/-! ## Bundles -/

structure AuditBundleFilter where
  sinceText : Str
  untilText : Str
  deriving DecidableEq

structure AuditBundleTimeRange where
  fromText : Str
  toText : Str
  deriving DecidableEq

structure AuditBundleManifest where
  recordsSHA256 : Str
  count : ℤ
  filter : Option AuditBundleFilter
  deriving DecidableEq

structure AuditBundle where
  version : ℤ
  generatedAt : Str
  recordCount : ℤ
  timeRange : Option AuditBundleTimeRange
  headHash : Str
  records : List AuditLog
  manifest : AuditBundleManifest
  signature : Str
  deriving DecidableEq

def auditBundleVersion : ℤ := 1

def filterJson : Option AuditBundleFilter → Value
  | none => .null
  | some f => .obj (omitEmpty (str "since") f.sinceText ++ omitEmpty (str "until") f.untilText)

def manifestJson (m : AuditBundleManifest) : Value :=
  .obj [(str "records_sha256", .str m.recordsSHA256), (str "count", .num (itoa m.count)),
    (str "filter", filterJson m.filter)]

variable (version : ℤ)

/-- The JSON of what is signed; the keys of a map are written in order. -/
def payloadJson (generatedAt headHash : Str) (manifest : AuditBundleManifest) : Value :=
  .obj [(str "generated_at", .str generatedAt), (str "head_hash", .str headHash),
    (str "manifest", manifestJson manifest), (str "version", .num (itoa version))]

def auditBundleSigningPayload (generatedAt headHash : Str) (manifest : AuditBundleManifest) : Str :=
  (payloadJson version generatedAt headHash manifest).marshal

/-- `json.Marshal` of a slice of records that is not nil. -/
def canonicalRecords (records : List AuditLog) : Str :=
  (Value.arr (records.map fun r => .obj r.members)).marshal

namespace AuditBundle

/-- What the signature of a bundle is computed from. -/
def payload (b : AuditBundle) : Str :=
  auditBundleSigningPayload b.version b.generatedAt b.headHash b.manifest

end AuditBundle

/-! ## Building -/

/-- `AuditHMACKey`: the key that bundles are signed with. -/
def auditHMACKey (c : Crypto) (getenv : Str → Str) (dir : HistoryDir) : Str :=
  if getenv auditEnvHMACKey ≠ [] then getenv auditEnvHMACKey
  else if getenv auditEnvSecretsPasswd ≠ [] then c.pbkdf2 (getenv auditEnvSecretsPasswd)
  else
    match readAuditKeyFile dir with
    | .ok (some key) => key
    | _ => auditDefaultKey

variable (c : Crypto)

theorem auditHMACKey_mem (getenv : Str → Str) (dir : HistoryDir) :
    auditHMACKey c getenv dir ∈ auditKeyCandidates c getenv dir := by
  rw [mem_auditKeyCandidates]
  unfold auditHMACKey
  split_ifs with hexplicit hpasswd
  · exact Or.inl ⟨rfl, hexplicit⟩
  · exact Or.inr (Or.inl ⟨rfl, hpasswd⟩)
  · split
    · rename_i key hkey
      exact Or.inr (Or.inr (Or.inl hkey))
    · exact Or.inr (Or.inr (Or.inr rfl))

/-- The time range of records, the first of which is given. -/
def timeRange (first : AuditLog) (records : List AuditLog) : AuditBundleTimeRange where
  fromText := (records.foldl (fun t r => if r.timestamp.instant < t.instant then r.timestamp else t)
    first.timestamp).text
  toText := (records.foldl (fun t r => if t.instant < r.timestamp.instant then r.timestamp else t)
    first.timestamp).text

def signAuditBundle (c : Crypto) (key : Str) (b : AuditBundle) : AuditBundle :=
  { b with signature := c.hmac .sha256 key b.payload }

/-- `BuildAuditBundle`, at a time in UTC. -/
def buildAuditBundle (c : Crypto) (key : Str) (records : List AuditLog)
    (filter : Option AuditBundleFilter) (generatedAt : ZonedTime) : AuditBundle :=
  signAuditBundle c key
    { version := auditBundleVersion
      generatedAt := generatedAt.clock ++ str "Z"
      recordCount := records.length
      timeRange := records.head?.map fun first => timeRange first records
      headHash := lastHash records
      records := records
      manifest :=
        { recordsSHA256 := c.sha256 (canonicalRecords records)
          count := records.length
          filter := filter }
      signature := [] }

theorem signature_buildAuditBundle (key : Str) (records : List AuditLog)
    (filter : Option AuditBundleFilter) (generatedAt : ZonedTime) :
    (buildAuditBundle c key records filter generatedAt).signature =
      c.hmac .sha256 key (buildAuditBundle c key records filter generatedAt).payload :=
  rfl

/-! ## Verifying -/

inductive BundleError
  | signature
  | recordsHash
  | notAtHead
  | record (index : ℕ) (err : AuditError)
  | brokenAt (index : ℕ)
  | headHash
  deriving DecidableEq, Repr

/-- The hash at which the chain of a bundle starts: without a filter the zero hash, otherwise the
one that the first record refers to. -/
def AuditBundle.firstExpected (b : AuditBundle) : Except BundleError Str :=
  match b.records, b.manifest.filter with
  | [], _ => .ok auditZeroHash
  | r :: _, none => if r.prevHash ≠ auditZeroHash then .error .notAtHead else .ok auditZeroHash
  | r :: _, some _ => .ok (if r.prevHash ≠ [] then r.prevHash else auditZeroHash)

/-- `VerifyAuditBundle`, under these keys. -/
def verifyAuditBundle (c : Crypto) (keys : List Str) (b : AuditBundle) : Except BundleError Unit :=
  if ¬ ∃ secret ∈ keys, c.hmac .sha256 secret b.payload = b.signature then .error .signature
  else if c.sha256 (canonicalRecords b.records) ≠ b.manifest.recordsSHA256 then .error .recordsHash
  else
    match b.firstExpected with
    | .error err => .error err
    | .ok first =>
      match verifyAuditRecordChainFrom c keys b.records first with
      | ⟨_, i, some err⟩ => .error (.record i err)
      | ⟨false, i, none⟩ => .error (.brokenAt i)
      | ⟨true, _, none⟩ => if lastHash b.records ≠ b.headHash then .error .headHash else .ok ()

namespace AuditBundle

/-- The hash from which the records of a bundle have to be linked. -/
def chainStart (b : AuditBundle) : Str :=
  match b.records, b.manifest.filter with
  | r :: _, some _ => if r.prevHash ≠ [] then r.prevHash else auditZeroHash
  | _, _ => auditZeroHash

/-- The records of a bundle are an intact chain under one of the keys, up to its head hash. -/
def ChainIntact (c : Crypto) (keys : List Str) (b : AuditBundle) : Prop :=
  (∃ key ∈ keys, Replays c key b.chainStart b.records) ∧ lastHash b.records = b.headHash

/-- The signature is one under one of the keys. -/
def SignedUnder (c : Crypto) (keys : List Str) (b : AuditBundle) : Prop :=
  ∃ secret ∈ keys, c.hmac .sha256 secret b.payload = b.signature

end AuditBundle

variable {c : Crypto} {keys : List Str} {prev : Str}

/-- A replay over records is intact or not; there are no other verdicts without an error. -/
private theorem verdict_of_replay {records : List AuditLog}
    {i : ℕ} (h : verifyAuditRecordChainFrom c keys records prev = ⟨true, i, none⟩) :
    verifyAuditRecordChainFrom c keys records prev = .intact := by
  suffices hall : ∀ (replay : Str → Except (ℕ × AuditError) ℕ) (secrets : List Str) first,
      (replayUnderKeys replay first secrets).valid = true →
        replayUnderKeys replay first secrets = .intact from hall _ _ _ (by
          rw [verifyAuditRecordChainFrom] at h
          rw [h])
  intro replay secrets
  induction secrets with
  | nil =>
    intro first hvalid
    cases first with
    | none => rfl
    | some broken => cases hvalid
  | cons secret secrets ih =>
    intro first hvalid
    rw [replayUnderKeys] at hvalid ⊢
    split at hvalid
    · cases hvalid
    · rfl
    · exact ih _ hvalid

/-- A bundle that does not start where it should is not linked from there. -/
private theorem firstExpected_spec (b : AuditBundle) :
    b.firstExpected = .ok b.chainStart ∨
      b.firstExpected = .error .notAtHead ∧
        ¬ HashChain.Linked AuditLog.prevHash AuditLog.currHash b.chainStart b.records := by
  unfold AuditBundle.firstExpected AuditBundle.chainStart
  cases hrecords : b.records with
  | nil => exact Or.inl rfl
  | cons r records =>
    cases hfilter : b.manifest.filter with
    | some filter => exact Or.inl rfl
    | none =>
      by_cases hprev : r.prevHash = auditZeroHash
      · exact Or.inl (if_neg (not_not.mpr hprev))
      · exact Or.inr ⟨if_pos hprev, fun hlinked => hprev hlinked.1⟩

/-- A bundle is accepted exactly if it is signed under one of the keys, its digest is the one of its
records and these are an intact chain. -/
theorem verifyAuditBundle_eq_ok_iff {b : AuditBundle} (hne : keys ≠ []) :
    verifyAuditBundle c keys b = .ok () ↔
      b.SignedUnder c keys ∧ c.sha256 (canonicalRecords b.records) = b.manifest.recordsSHA256 ∧
        b.ChainIntact c keys := by
  unfold verifyAuditBundle AuditBundle.SignedUnder AuditBundle.ChainIntact
  by_cases hsigned : ∃ secret ∈ keys, c.hmac .sha256 secret b.payload = b.signature
  swap
  · simp [hsigned]
  by_cases hdigest : c.sha256 (canonicalRecords b.records) = b.manifest.recordsSHA256
  swap
  · simp [hsigned, hdigest]
  rw [if_neg (not_not.mpr hsigned), if_neg (not_not.mpr hdigest)]
  simp only [hsigned, hdigest, true_and]
  rcases firstExpected_spec b with hfirst | ⟨hfirst, hbroken⟩
  · rw [hfirst, ← verifyAuditRecordChainFrom_iff hne]
    simp only
    split
    · rename_i hverdict
      simp [hverdict, ChainVerdict.intact]
    · rename_i hverdict
      simp [hverdict, ChainVerdict.intact]
    · rename_i i hverdict
      rw [verdict_of_replay hverdict]
      by_cases hhead : lastHash b.records = b.headHash <;> simp [hhead]
  · rw [hfirst]
    constructor
    · intro h
      cases h
    · rintro ⟨⟨key, -, hreplays⟩, -⟩
      exact absurd hreplays.1 hbroken

/-! ## The built-in key -/

variable {lines : List Str} {key key' : Str} {tooLong : Bool} {n n' : ℕ}

/-- If some key makes a replay succeed, no other key makes it fail with an error. -/
theorem verifyLines_scanErr {prev prev' : Str}
    (h : (verifyLines c key tooLong prev n lines).valid = true) :
    (verifyLines c key' tooLong prev' n' lines).scanErr = false := by
  induction lines generalizing prev prev' n n' with
  | nil =>
    cases tooLong with
    | true => simp [verifyLines] at h
    | false => rfl
  | cons text lines ih =>
    simp only [verifyLines] at h ⊢
    split_ifs at h ⊢ with hblank
    · exact ih h
    · split at h
      · cases h
      rename_i entry hentry
      split at h
      · cases h
      · cases h
      rename_i hcheck
      -- the record has a hash of a known algorithm, whatever the key is
      obtain ⟨-, algo, halgo, hcurr⟩ := checkRecord_eq_true_iff.mp hcheck
      obtain ⟨b, hcheck'⟩ := checkRecord_ok c key' prev' (hcurr ▸ (c.hmac_hex _ _ _).ne_nil) halgo
      simp only [hcheck']
      cases b with
      | false => rfl
      | true => exact ih h

/-- The records on the lines of a file that can be parsed. -/
def parsedRecords (data : Str) : List AuditLog :=
  ((scan maxAuditLine data).1.map trimSpace).filterMap AuditLog.unmarshal

/-- Where all hashes are the ones under a key, a replay that succeeds under any key succeeds under
that one. -/
theorem verifyLines_of_hashedUnder
    (hhashed : ∀ r ∈ (lines.map trimSpace).filterMap AuditLog.unmarshal, r.HashedUnder c key')
    (h : (verifyLines c key tooLong prev n lines).valid = true) :
    (verifyLines c key' tooLong prev n' lines).valid = true := by
  induction lines generalizing prev n n' with
  | nil =>
    cases tooLong with
    | true => simp [verifyLines] at h
    | false => rfl
  | cons text lines ih =>
    simp only [map_cons] at hhashed
    simp only [verifyLines] at h ⊢
    have hrest : ∀ r ∈ (lines.map trimSpace).filterMap AuditLog.unmarshal,
        r.HashedUnder c key' := by
      intro r hr
      refine hhashed r ?_
      rw [filterMap_cons]
      split
      · exact hr
      · exact mem_cons_of_mem _ hr
    split_ifs at h ⊢ with hblank
    · exact ih hrest h
    · split at h
      · cases h
      rename_i entry hentry
      split at h
      · cases h
      · cases h
      rename_i hcheck
      have hentry' : entry.HashedUnder c key' := by
        refine hhashed entry ?_
        rw [filterMap_cons, hentry]
        exact mem_cons_self
      have hcheck' : checkRecord c key' prev entry = .ok true :=
        checkRecord_eq_true_iff.mpr ⟨(checkRecord_eq_true_iff.mp hcheck).1, hentry'⟩
      simp only [hcheck']
      exact ih hrest h

/-- In every environment, also with an explicit key, a log or a bundle whose hashes and signature
are all the ones under the built-in key is accepted exactly if it is under that key alone. -/
theorem default_key_accepted_iff (c : Crypto) (getenv : Str → Str) (dir : HistoryDir) :
    (∀ data, dir.auditLog = some data →
      (∀ r ∈ parsedRecords data, r.HashedUnder c auditDefaultKey) →
        (verifyAuditChain c getenv dir = .intact ↔
          (verifyAuditLines c data auditDefaultKey).valid = true)) ∧
    ∀ b : AuditBundle, (∀ r ∈ b.records, r.HashedUnder c auditDefaultKey) →
      b.signature = c.hmac .sha256 auditDefaultKey b.payload →
        (verifyAuditBundle c (auditKeyCandidates c getenv dir) b = .ok () ↔
          verifyAuditBundle c [auditDefaultKey] b = .ok ()) := by
  have hdefault := auditDefaultKey_mem c getenv dir
  constructor
  · intro data hdata hhashed
    simp only [verifyAuditChain, hdata]
    have hdecided : ∀ key ∈ auditKeyCandidates c getenv dir,
        (verifyAuditLines c data key).scanErr = true → ∀ key' ∈ auditKeyCandidates c getenv dir,
          (verifyAuditLines c data key').valid = false := by
      intro key _ herr key' _
      by_contra hvalid
      rw [Bool.not_eq_false] at hvalid
      rw [verifyAuditLines, verifyLines_scanErr hvalid] at herr
      cases herr
    rw [verifyUnderKeys_eq_intact_iff hdecided]
    exact ⟨fun ⟨key, _, hvalid⟩ => verifyLines_of_hashedUnder hhashed hvalid,
      fun hvalid => ⟨_, hdefault, hvalid⟩⟩
  · intro b hhashed hsignature
    rw [verifyAuditBundle_eq_ok_iff (ne_nil_of_mem hdefault),
      verifyAuditBundle_eq_ok_iff (cons_ne_nil _ _)]
    have hsigned : ∀ keys, auditDefaultKey ∈ keys → b.SignedUnder c keys :=
      fun keys hkey => ⟨_, hkey, hsignature.symm⟩
    -- a chain that passes under any key passes under the one of its hashes
    have hchain : ∀ keys, auditDefaultKey ∈ keys → (b.ChainIntact c keys ↔
        Replays c auditDefaultKey b.chainStart b.records ∧ lastHash b.records = b.headHash) := by
      intro keys hkey
      exact ⟨fun ⟨⟨key, _, hreplays⟩, hhead⟩ => ⟨⟨hreplays.1, hhashed⟩, hhead⟩,
        fun ⟨hreplays, hhead⟩ => ⟨⟨_, hkey, hreplays⟩, hhead⟩⟩
    have hself : auditDefaultKey ∈ [auditDefaultKey] := mem_singleton_self _
    simp only [hsigned _ hdefault, hsigned _ hself, hchain _ hdefault, hchain _ hself]

/-- A record that was appended under the built-in key. -/
def forgedRecord : AuditLog :=
  (sampleCall [] (str "forged")).entry.sealed Crypto.checked auditDefaultKey auditZeroHash

def forgedBundle : AuditBundle :=
  buildAuditBundle Crypto.checked auditDefaultKey [forgedRecord] none sampleClock

def forgedDir : HistoryDir := ⟨some (lineFile [forgedRecord.marshal]), none⟩

private theorem written_forgedRecord : ∀ r ∈ [forgedRecord], r.Written := by
  intro r hr
  obtain rfl := mem_singleton.mp hr
  exact AuditLog.written_sealed _ _ isHex64_auditZeroHash (Or.inl rfl)

private theorem hashedUnder_forgedRecord :
    ∀ r ∈ [forgedRecord], r.HashedUnder Crypto.checked auditDefaultKey :=
  hashedUnder_auditRecords Crypto.checked auditDefaultKey [sampleCall [] (str "forged")]

private theorem keepsText_forgedRecord : forgedRecord.clean = forgedRecord := by
  decide +kernel

private theorem parsedRecords_forged :
    parsedRecords (lineFile [forgedRecord.marshal]) = [forgedRecord] := by
  have hshort : ([forgedRecord].takeWhile fun r => r.marshal.length < maxAuditLine) =
      [forgedRecord] := by
    decide +kernel
  have hlines := (scan_written written_forgedRecord).1
  rw [hshort] at hlines
  simp only [map_cons, map_nil] at hlines
  rw [parsedRecords, hlines, map_singleton, forgedRecord.trimSpace_marshal]
  simp [AuditLog.unmarshal_marshal, keepsText_forgedRecord]

/-- A log and a bundle under the built-in key pass with an explicit key in the environment. -/
theorem default_key_accepted_forged :
    verifyAuditChain Crypto.checked (sampleEnv []) forgedDir = .intact ∧
      verifyAuditBundle Crypto.checked (auditKeyCandidates Crypto.checked (sampleEnv []) forgedDir)
        forgedBundle = .ok () := by
  have hboth := default_key_accepted_iff Crypto.checked (sampleEnv []) forgedDir
  have hlines := (verifyAuditLines_written (c := Crypto.checked) written_forgedRecord
    auditDefaultKey).1.mpr ⟨by decide +kernel,
      replays_cons.mpr ⟨by decide +kernel, replays_nil _ _ _⟩⟩
  refine ⟨(hboth.1 _ rfl ?_).mpr hlines,
    (hboth.2 forgedBundle hashedUnder_forgedRecord ?_).mpr (by decide +kernel)⟩
  · rw [parsedRecords_forged]
    exact hashedUnder_forgedRecord
  · exact signature_buildAuditBundle _ _ _ _ _

/-- With an explicit key that is not the built-in one, a log and a bundle of one record, all of
whose hashes are under the built-in key, are accepted. -/
theorem not_default_key_rejected :
    sampleEnv [] auditEnvHMACKey ≠ [] ∧ sampleEnv [] auditEnvHMACKey ≠ auditDefaultKey ∧
      forgedRecord.HashedUnder Crypto.checked auditDefaultKey ∧
      forgedDir.Holds [forgedRecord] ∧
      verifyAuditChain Crypto.checked (sampleEnv []) forgedDir = .intact ∧
      forgedBundle.records = [forgedRecord] ∧
      forgedBundle.signature = Crypto.checked.hmac .sha256 auditDefaultKey forgedBundle.payload ∧
      verifyAuditBundle Crypto.checked (auditKeyCandidates Crypto.checked (sampleEnv []) forgedDir)
        forgedBundle = .ok () := by
  have hholds : forgedDir.Holds [forgedRecord] := rfl
  have hintact : verifyAuditChain Crypto.checked (sampleEnv []) forgedDir = .intact := by
    refine (verifyAuditChain_holds_iff hholds written_forgedRecord).mpr ⟨by decide +kernel,
      auditDefaultKey, auditDefaultKey_mem _ _ _, replays_cons.mpr ⟨by decide +kernel, ?_⟩⟩
    exact replays_nil _ _ _
  exact ⟨by decide, by decide +kernel, hashedUnder_forgedRecord _ (mem_singleton_self _),
    hholds, hintact, rfl, signature_buildAuditBundle _ _ _ _ _, by decide +kernel⟩

/-! ## Changes of a bundle -/

private theorem wellFormed_filterJson (filter : Option AuditBundleFilter) :
    (filterJson filter).WellFormed := by
  cases filter with
  | none => trivial
  | some f =>
    apply Value.wellFormed_obj
    simp only [omitEmpty, forall_mem_append]
    simp

private theorem wellFormed_manifestJson (manifest : AuditBundleManifest) :
    (manifestJson manifest).WellFormed := by
  apply Value.wellFormedMembers_iff.mpr
  simp only [forall_mem_cons, not_mem_nil, false_implies, implies_true, and_true]
  exact ⟨trivial, Value.wellFormed_num_itoa _, wellFormed_filterJson _⟩

private theorem wellFormed_payloadJson (generatedAt headHash : Str)
    (manifest : AuditBundleManifest) :
    (payloadJson version generatedAt headHash manifest).WellFormed := by
  apply Value.wellFormedMembers_iff.mpr
  simp only [forall_mem_cons, not_mem_nil, false_implies, implies_true, and_true]
  exact ⟨trivial, trivial, wellFormed_manifestJson manifest, Value.wellFormed_num_itoa _⟩

/-- The fields of two bundles that the signature and the digest cover are written in the same
way. -/
structure AuditBundle.SameSigned (b b' : AuditBundle) : Prop where
  version : b'.version = b.version
  generatedAt : quote b'.generatedAt = quote b.generatedAt
  headHash : quote b'.headHash = quote b.headHash
  recordsSHA256 : quote b'.manifest.recordsSHA256 = quote b.manifest.recordsSHA256
  count : b'.manifest.count = b.manifest.count
  filter : (filterJson b'.manifest.filter).marshal = (filterJson b.manifest.filter).marshal
  records : b'.records.map AuditLog.marshal = b.records.map AuditLog.marshal

/-- What is signed determines the texts of the fields that are signed. -/
theorem sameSigned_iff {b b' : AuditBundle} :
    b.SameSigned b' ↔ b'.payload = b.payload ∧
      b'.records.map AuditLog.marshal = b.records.map AuditLog.marshal := by
  constructor
  · rintro ⟨hversion, hgenerated, hhead, hsha, hcount, hfilter, hrecords⟩
    refine ⟨?_, hrecords⟩
    simp only [AuditBundle.payload, auditBundleSigningPayload, payloadJson, manifestJson,
      Value.marshal, Value.render, Value.renderMembers, hversion, hgenerated, hhead, hsha, hcount]
    simp only [Value.render_compact, hfilter]
  · rintro ⟨h, hrecords⟩
    have hpayload (b : AuditBundle) := Value.wellFormedMembers_iff.mp
      (wellFormed_payloadJson b.version b.generatedAt b.headHash b.manifest)
    have hmembers := Value.render_obj_inj (hpayload b') (hpayload b) rfl h
    simp only [forall₂_cons, forall₂_nil_left_iff, and_true] at hmembers
    obtain ⟨hgenerated, hhead, hmanifest, hversion⟩ := hmembers
    -- the manifest is an object again
    have hinner := Value.render_obj_inj
      (Value.wellFormedMembers_iff.mp (wellFormed_manifestJson b'.manifest))
      (Value.wellFormedMembers_iff.mp (wellFormed_manifestJson b.manifest)) rfl hmanifest
    simp only [forall₂_cons, forall₂_nil_left_iff, and_true] at hinner
    obtain ⟨hsha, hcount, hfilter⟩ := hinner
    simp only [Value.render_compact] at hfilter
    simp only [Value.render] at hgenerated hhead hversion hsha hcount
    exact ⟨itoa_injective hversion, hgenerated, hhead, hsha, itoa_injective hcount, hfilter,
      hrecords⟩

/-- The canonical text of records determines the lines of the records, and conversely. -/
theorem canonicalRecords_eq_iff {records records' : List AuditLog} :
    canonicalRecords records' = canonicalRecords records ↔
      records'.map AuditLog.marshal = records.map AuditLog.marshal := by
  constructor
  · intro h
    have hwf : ∀ rs : List AuditLog, ∀ x ∈ rs.map fun r => Value.obj r.members, x.WellFormed := by
      intro rs x hx
      obtain ⟨r, -, rfl⟩ := mem_map.mp hx
      exact Value.wellFormed_obj r.shallow_members
    have helems := Value.render_arr_inj (hwf records') (hwf records) h
    simp only [Value.render_compact, forall₂_map_left_iff,
      forall₂_map_right_iff] at helems
    rw [← forall₂_eq_eq_eq, forall₂_map_left_iff, forall₂_map_right_iff]
    exact helems
  · intro h
    apply Value.marshal_arr_congr
    rw [map_map, map_map]
    exact h

/-- A bundle that was built is changed: in any fields but the signature, or in the signature alone.
It is rejected exactly if the change shows in a field that is covered, or the signature is none
under the keys, or its records are no intact chain. -/
theorem changed_bundle_rejected_iff {c : Crypto} {getenv : Str → Str} {dir : HistoryDir}
    {records : List AuditLog} {filter : Option AuditBundleFilter} {generatedAt : ZonedTime}
    {b b' : AuditBundle}
    (hb : b = buildAuditBundle c (auditHMACKey c getenv dir) records filter generatedAt)
    (hchange : b'.signature = b.signature ∨ b' = { b with signature := b'.signature })
    (hmac : c.InjectiveOn ((auditKeyCandidates c getenv dir).flatMap fun key =>
      [(.sha256, key, b.payload), (.sha256, key, b'.payload)]))
    (hsha : c.sha256 (canonicalRecords b'.records) = c.sha256 (canonicalRecords b.records) →
      canonicalRecords b'.records = canonicalRecords b.records) :
    verifyAuditBundle c (auditKeyCandidates c getenv dir) b' ≠ .ok () ↔
      ¬ b.SameSigned b' ∨ ¬ b'.SignedUnder c (auditKeyCandidates c getenv dir) ∨
        ¬ b'.ChainIntact c (auditKeyCandidates c getenv dir) := by
  have hkey := auditHMACKey_mem c getenv dir
  rw [ne_eq, verifyAuditBundle_eq_ok_iff (ne_nil_of_mem hkey), ← not_and_or, ← not_and_or,
    not_iff_not]
  have hdigest : b.manifest.recordsSHA256 = c.sha256 (canonicalRecords b.records) := by
    rw [hb]
    rfl
  have hsigned : b.signature = c.hmac .sha256 (auditHMACKey c getenv dir) b.payload := by
    rw [hb]
    rfl
  have hvalid : ValidUtf8 b.manifest.recordsSHA256 := by
    rw [hdigest]
    exact (c.sha256_hex _).validUtf8
  constructor
  · rintro ⟨hsig, hrecords, hchain⟩
    refine ⟨?_, hsig, hchain⟩
    rcases hchange with hsame | hsame
    · -- the same signature is one of the same payload
      obtain ⟨key, hcandidate, hmatch⟩ := hsig
      have hpayload : b'.payload = b.payload := by
        rw [hsame, hsigned] at hmatch
        have huse := hmac (.sha256, key, b'.payload)
          (mem_flatMap.mpr ⟨key, hcandidate, by simp⟩)
          (.sha256, auditHMACKey c getenv dir, b.payload)
          (mem_flatMap.mpr ⟨_, hkey, by simp⟩) hmatch
        exact congrArg (fun u => u.2.2) huse
      have hfields : b.SameSigned { b' with records := b.records } :=
        sameSigned_iff.mpr ⟨hpayload, rfl⟩
      rw [eq_of_quote_eq hvalid hfields.recordsSHA256, hdigest] at hrecords
      exact { hfields with records := canonicalRecords_eq_iff.mp (hsha hrecords) }
    · rw [hsame]
      exact ⟨rfl, rfl, rfl, rfl, rfl, rfl, rfl⟩
  · rintro ⟨hsame, hsig, hchain⟩
    refine ⟨hsig, ?_, hchain⟩
    rw [eq_of_quote_eq hvalid hsame.recordsSHA256, hdigest,
      canonicalRecords_eq_iff.mpr hsame.records]

/-- The keys of a directory without a log, where the explicit key is set. -/
def sampleKeys : List Str := auditKeyCandidates Crypto.checked (sampleEnv []) ⟨none, none⟩

/-- A bundle of one record under the explicit key. -/
def sampleBundle : AuditBundle :=
  buildAuditBundle Crypto.checked (auditHMACKey Crypto.checked (sampleEnv []) ⟨none, none⟩)
    (auditRecords Crypto.checked (str "secret") [sampleCall [] (str "first")]) none sampleClock

def redatedBundle : AuditBundle := { sampleBundle with generatedAt := str "2026-03-01T10:00:00Z" }

/-- Another creation time in a bundle is found. -/
theorem changed_bundle_rejected_time :
    verifyAuditBundle Crypto.checked sampleKeys redatedBundle ≠ .ok () := by
  have hb : sampleBundle = buildAuditBundle Crypto.checked
      (auditHMACKey Crypto.checked (sampleEnv []) ⟨none, none⟩) _ none sampleClock := rfl
  have hchange : redatedBundle.signature = sampleBundle.signature ∨
      redatedBundle = { sampleBundle with signature := redatedBundle.signature } := Or.inl rfl
  have hrecords : redatedBundle.records = sampleBundle.records := rfl
  have hshown : ¬ sampleBundle.SameSigned redatedBundle :=
    fun h => absurd h.generatedAt (by decide +kernel)
  exact (changed_bundle_rejected_iff hb hchange (by decide +kernel)
    (fun _ => by rw [hrecords])).mpr (Or.inl hshown)

/-- Another number of records, or no time range, is not found. -/
theorem not_changed_bundle_rejected_count :
    verifyAuditBundle Crypto.checked sampleKeys { sampleBundle with recordCount := 7 } = .ok () ∧
      verifyAuditBundle Crypto.checked sampleKeys { sampleBundle with timeRange := none } = .ok () ∧
      { sampleBundle with recordCount := 7 } ≠ sampleBundle ∧
      { sampleBundle with timeRange := none } ≠ sampleBundle := by
  decide +kernel

end History

import Aflare.History.AuditBundle

/-!
# Exporting the audit log

The `audit export` command selects records by their time stamps and builds a bundle of them. The
verifier takes the selected records for a part of the chain without gaps. They are one if the time
stamps go up along the chain, and a bundle with a gap is not accepted.
-/

namespace History

open Go List

/-- `time.ParseInLocation` with the date layout and `time.Parse` with RFC 3339, each giving the
instant in nanoseconds. -/
structure TimeParser where
  date : Str → Option ℤ
  rfc3339 : Str → Option ℤ

/-- The instant of the zero time, which stands for no bound. -/
def zeroInstant : ℤ := ZonedTime.zero.instant

/-- `parseAuditTimeArg`: the instant and whether the argument is a date only. -/
def parseAuditTimeArg (parser : TimeParser) (value : Str) : Option (ℤ × Bool) :=
  if value = [] then some (zeroInstant, false)
  else
    match parser.date value with
    | some t => some (t, true)
    | none => (parser.rfc3339 value).map fun t => (t, false)

/-- The bounds of an export; a date as the upper bound stands for the end of that day. -/
def auditBounds (parser : TimeParser) (filter : AuditBundleFilter) : Option (ℤ × ℤ) := do
  let (sinceT, _) ← parseAuditTimeArg parser filter.sinceText
  let (untilT, dateOnly) ← parseAuditTimeArg parser filter.untilText
  some (sinceT, if dateOnly then untilT + (24 * 3600 * 1000000000 - 1) else untilT)

def filterAuditRecords (records : List AuditLog) (sinceT untilT : ℤ) : List AuditLog :=
  records.filter fun r =>
    !(sinceT ≠ zeroInstant && r.timestamp.instant < sinceT) &&
      !(untilT ≠ zeroInstant && untilT < r.timestamp.instant)

/-- The filter that is recorded in a bundle: none without arguments. -/
def recordedFilter (filter : AuditBundleFilter) : Option AuditBundleFilter :=
  if filter.sinceText ≠ [] ∨ filter.untilText ≠ [] then some filter else none

/-- The bundle that `runAuditExport` builds from the records of the log; no bundle if an argument is
not accepted. -/
def exportAuditBundle (c : Crypto) (getenv : Str → Str) (dir : HistoryDir)
    (parser : TimeParser) (filter : AuditBundleFilter) (generatedAt : ZonedTime)
    (records : List AuditLog) : Option AuditBundle :=
  (auditBounds parser filter).map fun bounds =>
    buildAuditBundle c (auditHMACKey c getenv dir)
      (filterAuditRecords records bounds.1 bounds.2) (recordedFilter filter) generatedAt

theorem filterAuditRecords_of_none {parser : TimeParser} {filter : AuditBundleFilter}
    {bounds : ℤ × ℤ} (hbounds : auditBounds parser filter = some bounds)
    (hnone : recordedFilter filter = none) (records : List AuditLog) :
    filterAuditRecords records bounds.1 bounds.2 = records := by
  obtain ⟨hsince, huntil⟩ : filter.sinceText = [] ∧ filter.untilText = [] := by
    by_contra hne
    rw [recordedFilter, if_pos (by tauto)] at hnone
    cases hnone
  simp only [auditBounds, parseAuditTimeArg, hsince, huntil, if_true] at hbounds
  cases hbounds
  simp [filterAuditRecords]

theorem chainIntact_build_iff {c : Crypto} {keys : List Str} {key : Str}
    {records : List AuditLog} {filter : Option AuditBundleFilter} {generatedAt : ZonedTime} :
    (buildAuditBundle c key records filter generatedAt).ChainIntact c keys ↔
      ∃ secret ∈ keys,
        Replays c secret (buildAuditBundle c key records filter generatedAt).chainStart records :=
  and_iff_left rfl

/-- The bundle that is exported from an intact chain is accepted if the selected records stand next
to each other in the chain, and, if no two hashes of the chain are the same, only then. -/
theorem export_accepted_iff {c : Crypto} {getenv : Str → Str} {dir : HistoryDir}
    {parser : TimeParser} {filter : AuditBundleFilter} {generatedAt : ZonedTime}
    {records : List AuditLog} {bounds : ℤ × ℤ} {b : AuditBundle}
    (hchain : verifyAuditRecordChainFrom c (auditKeyCandidates c getenv dir) records auditZeroHash =
      .intact)
    (hbounds : auditBounds parser filter = some bounds)
    (hexport : exportAuditBundle c getenv dir parser filter generatedAt records = some b) :
    (filterAuditRecords records bounds.1 bounds.2 <:+: records →
        verifyAuditBundle c (auditKeyCandidates c getenv dir) b = .ok ()) ∧
      ((auditZeroHash :: records.map AuditLog.currHash).Nodup →
        verifyAuditBundle c (auditKeyCandidates c getenv dir) b = .ok () →
          filterAuditRecords records bounds.1 bounds.2 <:+: records) := by
  have hne := ne_nil_of_mem (auditHMACKey_mem c getenv dir)
  obtain ⟨key, hkey, hlinked, hhashed⟩ := (verifyAuditRecordChainFrom_iff hne).mp hchain
  rw [exportAuditBundle, hbounds, Option.map_some, Option.some_inj] at hexport
  have hselected : ∀ r ∈ filterAuditRecords records bounds.1 bounds.2, r.HashedUnder c key :=
    fun r hr => hhashed r (mem_of_mem_filter hr)
  have hprev : ∀ r ∈ records, r.prevHash ≠ [] := by
    intro r hr
    rcases mem_cons.mp (hlinked.link_mem hr) with hzero | hmem
    · rw [hzero]
      exact isHex64_auditZeroHash.ne_nil
    · obtain ⟨r', hr', heq⟩ := mem_map.mp hmem
      obtain ⟨algo, -, hcurr⟩ := hhashed r' hr'
      rw [← heq, hcurr]
      exact (c.hmac_hex _ _ _).ne_nil
  have hall : recordedFilter filter = none →
      filterAuditRecords records bounds.1 bounds.2 = records :=
    fun hnone => filterAuditRecords_of_none hbounds hnone records
  have hsub : filterAuditRecords records bounds.1 bounds.2 <+ records := filter_sublist
  generalize filterAuditRecords records bounds.1 bounds.2 = selected at *
  -- the signature and the digest hold by construction, and so do the hashes of the records
  have hsigned : b.SignedUnder c (auditKeyCandidates c getenv dir) := by
    rw [← hexport]
    exact ⟨_, auditHMACKey_mem c getenv dir, rfl⟩
  have hdigest : c.sha256 (canonicalRecords b.records) = b.manifest.recordsSHA256 := by
    rw [← hexport]
    rfl
  have hreplays : ∀ start, (∃ secret ∈ auditKeyCandidates c getenv dir,
      Replays c secret start selected) ↔
        HashChain.Linked AuditLog.prevHash AuditLog.currHash start selected :=
    fun start => ⟨fun ⟨_, _, h⟩ => h.1, fun h => ⟨key, hkey, h, hselected⟩⟩
  rw [verifyAuditBundle_eq_ok_iff hne, and_iff_right hsigned, and_iff_right hdigest, ← hexport,
    chainIntact_build_iff, hreplays]
  cases selected with
  | nil => exact ⟨fun _ => trivial, fun _ _ => nil_infix⟩
  | cons first rest =>
    have hstart : (buildAuditBundle c (auditHMACKey c getenv dir) (first :: rest)
        (recordedFilter filter) generatedAt).chainStart = first.prevHash := by
      cases hfilter : recordedFilter filter with
      | none =>
        -- without a filter the first record is the first of the chain
        rw [← hall hfilter] at hlinked
        exact hlinked.1.symm
      | some recorded => exact if_pos (hprev first (hsub.subset mem_cons_self))
    rw [hstart]
    constructor
    · rintro ⟨front, back, heq⟩
      rw [← heq, HashChain.linked_append, HashChain.linked_append] at hlinked
      exact ⟨rfl, hlinked.1.2.2⟩
    · exact fun hdistinct hbundle => hlinked.infix_of_sublist hdistinct hsub hbundle.2

/-- A clock reading at an hour of a day. -/
def sampleHour (hour : ℕ) (h : IsClock (str "2026-03-01T" ++ twoDigits hour ++ str ":00:00")) :
    ZonedTime where
  clock := str "2026-03-01T" ++ twoDigits hour ++ str ":00:00"
  frac := []
  offset := 0
  isClock := h
  isFraction := ZonedTime.zero.isFraction
  offset_lt := ZonedTime.zero.offset_lt

def sampleEntry (t : ZonedTime) : AuditLog :=
  { AuditLog.zero with id := str "1", action := str "workflow.run", timestamp := t }

/-- Entries at nine, at twelve and at ten. -/
def sampleEntries : List AuditLog :=
  [sampleEntry (sampleHour 9 (by decide)), sampleEntry (sampleHour 12 (by decide)),
    sampleEntry (sampleHour 10 (by decide))]

/-- A parser that knows one argument, eleven o'clock. -/
def sampleParser : TimeParser where
  date _ := none
  rfc3339 value :=
    if value = str "2026-03-01T11:00:00Z" then
      some (sampleHour 11 (by decide)).instant
    else none

/-- The log of the first of these entries. -/
def sampleLog (n : ℕ) : List AuditLog :=
  sealedChain Crypto.checked (str "secret") auditZeroHash (sampleEntries.take n)

/-- The export of a log up to eleven o'clock. -/
def exportSample (log : List AuditLog) : Option AuditBundle :=
  exportAuditBundle Crypto.checked (sampleEnv []) ⟨none, none⟩ sampleParser
    ⟨[], str "2026-03-01T11:00:00Z"⟩ sampleClock log

/-- The export up to eleven o'clock of a chain whose time stamps go up. -/
theorem export_accepted_monotone :
    ∃ b, exportSample (sampleLog 2) = some b ∧
      verifyAuditBundle Crypto.checked sampleKeys b = .ok () := by
  have hchain : verifyAuditRecordChainFrom Crypto.checked sampleKeys (sampleLog 2) auditZeroHash =
      .intact := by
    decide +kernel
  have hselected : filterAuditRecords (sampleLog 2) zeroInstant
      (sampleHour 11 (by decide)).instant = sampleLog 1 := by
    decide +kernel
  have hbounds : auditBounds sampleParser ⟨[], str "2026-03-01T11:00:00Z"⟩ =
      some (zeroInstant, (sampleHour 11 (by decide)).instant) := rfl
  obtain ⟨b, hexport⟩ : ∃ b, exportSample (sampleLog 2) = some b := ⟨_, rfl⟩
  refine ⟨b, hexport, (export_accepted_iff hchain hbounds hexport).1 ?_⟩
  rw [hselected]
  exact ⟨[], _, rfl⟩

/-- The export up to eleven o'clock leaves out the record in the middle. -/
theorem not_export_accepted_gap :
    verifyAuditRecordChainFrom Crypto.checked sampleKeys (sampleLog 3) auditZeroHash = .intact ∧
      ∃ b, exportSample (sampleLog 3) = some b ∧
        verifyAuditBundle Crypto.checked sampleKeys b ≠ .ok () := by
  refine ⟨by decide +kernel, _, rfl, by decide +kernel⟩

end History

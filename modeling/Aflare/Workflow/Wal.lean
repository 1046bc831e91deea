import Aflare.Lib.Frames
import Aflare.Workflow.WalRecord

/-!
# The write-ahead log

The log file with its buffered writer: opening, appending, flushing, replaying and compacting.
The bytes on disk and the bytes still in the buffer are kept apart, since only the former survive
a crash; `WAL.log` is both together. File system errors are not part of this model.
-/

namespace Workflow

open Go List

/-- The largest `uint32`. -/
def maxUint32 : ℕ := 2 ^ 32 - 1

/-- The cap of the reader on the length of a record. -/
def walMaxRecordSize : ℕ := 64 * 1024 * 1024

/-- The size in bytes at which a log is compacted by default. -/
def defaultWALCompactionThreshold : ℤ := 2 ^ 20

/-- The size of the buffer of the log's writer. -/
def walBufferSize : ℕ := 64 * 1024

/-- The length prefix of a record, or an error for a length that does not fit 32 bits. -/
def walFrameLen (dataLen : ℕ) : Except Str ℕ :=
  if maxUint32 < dataLen then
    .error (str "wal: record too large (" ++ itoa dataLen ++ str " bytes, max " ++
      itoa maxUint32 ++ str ")")
  else .ok dataLen

/-- The options of a log that its operations read. -/
structure WALOptions where
  compactionThreshold : ℤ
  syncEveryWrite : Bool
  deriving DecidableEq, Repr

structure WAL where
  file : Str
  buffer : Str
  /-- The last sequence number assigned. -/
  seq : ℤ
  bytesSinceCompaction : ℤ
  opts : WALOptions
  deriving DecidableEq

/-- The records that `ReplayWAL` yields for a file. -/
def replayWAL (file : Str) : List WALRecord :=
  Frames.replay checksumIEEE walMaxRecordSize WALRecord.unmarshal file

/-- The bytes of a record in the log. -/
def walFrame (r : WALRecord) : Str := Frames.frame checksumIEEE r.marshal

def walFrames (rs : List WALRecord) : Str := Frames.frames checksumIEEE (rs.map WALRecord.marshal)

/-- The highest sequence number in a file, at least zero. -/
def recoverSeq (file : Str) : ℤ :=
  (replayWAL file).foldl (fun seq r => if seq < r.seq then r.seq else seq) 0

/-- `NewWAL`: open a log on a file. Existing bytes are kept as they are and new frames go after
them. -/
def newWAL (opts : WALOptions) (file : Str) : WAL where
  file := file
  buffer := []
  seq := recoverSeq file
  bytesSinceCompaction := file.length
  opts :=
    if opts.compactionThreshold ≤ 0 then
      { opts with compactionThreshold := defaultWALCompactionThreshold }
    else opts

variable (w : WAL)

namespace WAL

/-- Everything written to the log, flushed or not. -/
def log (w : WAL) : Str := w.file ++ w.buffer

/-- `bufio.Writer.Write`: bytes that do not fit the buffer fill it up and flush it; what is larger
than an empty buffer goes to the file directly. -/
def write (w : WAL) (p : Str) : WAL :=
  let room := walBufferSize - w.buffer.length
  if p.length ≤ room then { w with buffer := w.buffer ++ p }
  else if w.buffer = [] then { w with file := w.file ++ p }
  else
    let file := w.file ++ w.buffer ++ p.take room
    let rest := p.drop room
    if rest.length ≤ walBufferSize then { w with file := file, buffer := rest }
    else { w with file := file ++ rest, buffer := [] }

/-- `Flush` and, as file systems do not fail here, `Sync` and `Close`. -/
def flush (w : WAL) : WAL := { w with file := w.file ++ w.buffer, buffer := [] }

/-- The record as `Append` stores it: with the next sequence number, and with the current time if
it has none. -/
def stamp (seq : ℤ) (r : WALRecord) (now : Time) : WALRecord :=
  { r with
    seq := seq + 1
    timestamp := if r.timestamp.isZero then now else r.timestamp }

/-- Write the three parts of a frame: its length, the data, the checksum of the data. -/
def writeFrame (w : WAL) (frameLen : ℕ) (data : Str) : WAL :=
  ((w.write (putUint32 frameLen)).write data).write (putUint32 (checksumIEEE data).toNat)

/-- `Append`. An error leaves the log as it was. -/
def append (w : WAL) (r : WALRecord) (now : Time) : Except Str WAL := do
  let data := (stamp w.seq r now).marshal
  let frameLen ← walFrameLen data.length
  let w := writeFrame { w with seq := w.seq + 1 } frameLen data
  let w := { w with bytesSinceCompaction := w.bytesSinceCompaction + (4 + data.length + 4) }
  .ok (if w.opts.syncEveryWrite then w.flush else w)

/-- Append several records, each at its own time. -/
def appendAll : WAL → List (WALRecord × Time) → Except Str WAL
  | w, [] => .ok w
  | w, (r, now) :: rs => do
    let w ← w.append r now
    w.appendAll rs

/-- The records as a sequence of appends stores them. -/
def stampAll : ℤ → List (WALRecord × Time) → List WALRecord
  | _, [] => []
  | seq, (r, now) :: rs => stamp seq r now :: stampAll (seq + 1) rs

/-! ## What the operations do to the log -/

@[simp] theorem log_write (p : Str) : (w.write p).log = w.log ++ p := by
  simp only [write]
  split_ifs with hroom hempty hrest
  · simp [log]
  · simp [log, hempty]
  · simp [log, append_assoc]
  · simp [log, append_assoc]

theorem write_eq (p : Str) :
    ∃ file buffer, w.write p = { w with file := file, buffer := buffer } := by
  simp only [write]
  split_ifs
  · exact ⟨w.file, _, rfl⟩
  · exact ⟨_, w.buffer, rfl⟩
  · exact ⟨_, _, rfl⟩
  · exact ⟨_, _, rfl⟩

theorem writeFrame_eq (n : ℕ) (data : Str) :
    ∃ file buffer, w.writeFrame n data = { w with file := file, buffer := buffer } := by
  obtain ⟨f₁, b₁, h₁⟩ := write_eq w (putUint32 n)
  obtain ⟨f₂, b₂, h₂⟩ := write_eq (w.write (putUint32 n)) data
  obtain ⟨f₃, b₃, h₃⟩ := write_eq ((w.write (putUint32 n)).write data)
    (putUint32 (checksumIEEE data).toNat)
  exact ⟨f₃, b₃, by rw [writeFrame, h₃, h₂, h₁]⟩

@[simp] theorem log_writeFrame (data : Str) :
    (w.writeFrame data.length data).log = w.log ++ Frames.frame checksumIEEE data := by
  simp [writeFrame, Frames.frame]

@[simp] theorem log_flush : w.flush.log = w.log := by simp [log, flush]

@[simp] theorem file_flush : w.flush.file = w.log := rfl

theorem walFrameLen_eq_ok {n m : ℕ} : walFrameLen n = .ok m ↔ m = n ∧ n ≤ maxUint32 := by
  unfold walFrameLen
  split
  · simp
    omega
  · simp only [Except.ok.injEq]
    omega

variable {w w' : WAL}

/-- A successful append adds the frame of the stamped record and counts its number. -/
theorem append_ok {r : WALRecord} {now : Time} (h : w.append r now = .ok w') :
    (stamp w.seq r now).marshal.length ≤ maxUint32 ∧
      w'.log = w.log ++ walFrame (stamp w.seq r now) ∧ w'.seq = w.seq + 1 := by
  simp only [append] at h
  cases hlen : walFrameLen (stamp w.seq r now).marshal.length with
  | error e =>
    rw [hlen] at h
    cases h
  | ok n =>
    obtain ⟨rfl, hmax⟩ := walFrameLen_eq_ok.mp hlen
    rw [hlen] at h
    cases h
    have hlog := log_writeFrame { w with seq := w.seq + 1 } (stamp w.seq r now).marshal
    obtain ⟨file, buffer, heq⟩ :=
      writeFrame_eq { w with seq := w.seq + 1 } (stamp w.seq r now).marshal.length
        (stamp w.seq r now).marshal
    simp only [log, heq] at hlog
    refine ⟨hmax, ?_, ?_⟩
    · simp only [heq]
      split
      · simpa [log, flush, walFrame] using hlog
      · simpa [log, walFrame] using hlog
    · simp only [heq]
      split <;> rfl

/-- Appending stamps the records in order and adds one frame for each. -/
theorem appendAll_ok {rs : List (WALRecord × Time)} (h : w.appendAll rs = .ok w') :
    (∀ r ∈ stampAll w.seq rs, r.marshal.length ≤ maxUint32) ∧
      w'.log = w.log ++ walFrames (stampAll w.seq rs) := by
  induction rs generalizing w with
  | nil =>
    cases h
    simp [stampAll, walFrames, Frames.frames]
  | cons p rs ih =>
    obtain ⟨r, now⟩ := p
    obtain ⟨w₁, happend, hrest⟩ := bind_eq_ok.mp h
    obtain ⟨hlen, hlog, hseq⟩ := append_ok happend
    obtain ⟨hlens, hlogs⟩ := ih hrest
    rw [hseq] at hlens hlogs
    refine ⟨?_, ?_⟩
    · exact forall_mem_cons.mpr ⟨hlen, hlens⟩
    · rw [hlogs, hlog]
      simp [stampAll, walFrames, Frames.frames, walFrame]

end WAL

/-! ## Recovery after a torn tail -/

/-- `r` survives the JSON encoding. -/
def JsonStable (r : WALRecord) : Prop := WALRecord.unmarshal r.marshal = some r

/-- `torn` is what a crash in the middle of writing one further record leaves. -/
def TornFrame (torn : Str) : Prop :=
  ∃ r : WALRecord, r.marshal.length ≤ maxUint32 ∧ torn <+: walFrame r ∧ torn ≠ walFrame r

/-- The checksum rejects whatever stands at the start of `bytes` in the place of a frame. -/
def ChecksumRejects (bytes : Str) : Prop :=
  ∀ data sum rest, Frames.splitFrame walMaxRecordSize bytes = some (data, sum, rest) →
    (checksumIEEE data).toNat ≠ sum

theorem replayWAL_of_checksumRejects {bytes : Str} (h : ChecksumRejects bytes) :
    replayWAL bytes = [] := by
  apply Frames.replay_of_readFrame_none
  unfold Frames.readFrame
  split
  · rfl
  · rename_i data sum rest hsplit
    rw [if_neg (h data sum rest hsplit)]

theorem replayWAL_torn {torn : Str} (h : TornFrame torn) : replayWAL torn = [] := by
  obtain ⟨r, hlen, hfront, hne⟩ := h
  have hlt : r.marshal.length < 2 ^ 32 := by
    simp only [maxUint32] at hlen
    omega
  exact Frames.replay_torn hlt hfront hne

private theorem encodable {rs : List WALRecord} (hjson : ∀ r ∈ rs, JsonStable r)
    (hlen : ∀ r ∈ rs, r.marshal.length ≤ maxUint32) :
    ∀ r ∈ rs, r.marshal ≠ [] ∧ r.marshal.length < 2 ^ 32 ∧
      WALRecord.unmarshal r.marshal = some (id r) := by
  intro r hr
  have hr' := hlen r hr
  simp only [maxUint32] at hr'
  exact ⟨r.marshal_ne_nil, by omega, hjson r hr⟩

/-- Two sessions on one log with a crash between them: the records of the first session are
appended and synced, the crash leaves `torn` behind them, and the second session appends to the
reopened log. -/
structure CrashReopen where
  opts : WALOptions
  opts' : WALOptions
  before : List (WALRecord × Time)
  torn : Str
  after : List (WALRecord × Time)
  w₁ : WAL
  w₂ : WAL
  appended : (newWAL opts []).appendAll before = .ok w₁
  crashed : TornFrame torn
  reopened : (newWAL opts' (w₁.flush.file ++ torn)).appendAll after = .ok w₂

namespace CrashReopen

variable (c : CrashReopen)

/-- The records of the first session, as they were stored. -/
def first : List WALRecord := WAL.stampAll (newWAL c.opts []).seq c.before

/-- The records of the second session, as they were stored. -/
def second : List WALRecord := WAL.stampAll (newWAL c.opts' (c.w₁.flush.file ++ c.torn)).seq c.after

/-- The records that recovery gives in the end. -/
def recovered : List WALRecord := replayWAL c.w₂.flush.file

variable (c : CrashReopen)

theorem file_eq : c.w₂.flush.file = walFrames c.first ++ (c.torn ++ walFrames c.second) := by
  obtain ⟨-, hlog₁⟩ := WAL.appendAll_ok c.appended
  obtain ⟨-, hlog₂⟩ := WAL.appendAll_ok c.reopened
  have hnew (opts : WALOptions) (file : Str) : (newWAL opts file).log = file := by
    simp [newWAL, WAL.log]
  have hfirst : c.w₁.flush.file = walFrames c.first := by
    rw [WAL.file_flush, hlog₁, hnew]
    rfl
  rw [hnew] at hlog₂
  rw [WAL.file_flush, hlog₂, ← second, hfirst, append_assoc]

private theorem second_eq_nil_iff : c.second = [] ↔ c.after = [] := by
  unfold second
  cases c.after with
  | nil | cons p rs => simp [WAL.stampAll]

/-- Recovery gives the records of both sessions exactly when every record is within the reader's
cap and there is nothing torn in front of a later record. -/
theorem recovered_eq_iff (c : CrashReopen) (hjson : ∀ r ∈ c.first ++ c.second, JsonStable r)
    (hcrc : c.torn ≠ [] → ChecksumRejects (c.torn ++ walFrames c.second)) :
    c.recovered = c.first ++ c.second ↔
      (∀ r ∈ c.first ++ c.second, r.marshal.length ≤ walMaxRecordSize) ∧
        (c.torn = [] ∨ c.after = []) := by
  have hmax : walMaxRecordSize < 2 ^ 32 := by decide
  have hlen : ∀ r ∈ c.first ++ c.second, r.marshal.length ≤ maxUint32 :=
    forall_mem_append.mpr ⟨(WAL.appendAll_ok c.appended).1, (WAL.appendAll_ok c.reopened).1⟩
  have henc := encodable hjson hlen
  rw [recovered, file_eq]
  by_cases htorn : c.torn = []
  · -- nothing torn: the file is the frames of both sessions
    have hempty : Frames.replay checksumIEEE walMaxRecordSize WALRecord.unmarshal [] = [] := rfl
    have hiff := Frames.replay_frames_eq_iff hmax henc hempty
    simpa [htorn, replayWAL, walFrames, Frames.frames] using hiff
  · have hstop : replayWAL (c.torn ++ walFrames c.second) = [] :=
      replayWAL_of_checksumRejects (hcrc htorn)
    by_cases hafter : c.after = []
    · have hsecond := c.second_eq_nil_iff.mpr hafter
      rw [hsecond, append_nil] at henc ⊢
      rw [hsecond] at hstop
      have hiff := Frames.replay_frames_eq_iff hmax henc hstop
      simpa [hafter, replayWAL, walFrames] using hiff
    · -- the torn bytes hide at least one record of the second session
      have hsecond : c.second ≠ [] := fun h => hafter (c.second_eq_nil_iff.mp h)
      constructor
      · intro h
        have hsizes : ∀ p ∈ c.first.map WALRecord.marshal, p ≠ [] ∧ p.length < 2 ^ 32 := by
          intro p hp
          obtain ⟨r, hr, rfl⟩ := mem_map.mp hp
          have hr' := henc r (mem_append_left _ hr)
          exact ⟨hr'.1, hr'.2.1⟩
        have hcount : (replayWAL (walFrames c.first ++ (c.torn ++ walFrames c.second))).length ≤
            (c.first.map WALRecord.marshal).length +
              (replayWAL (c.torn ++ walFrames c.second)).length :=
          Frames.length_replay_append_le hsizes _
        have hpos := length_pos_iff.mpr hsecond
        rw [h, hstop] at hcount
        simp only [length_append, length_map, length_nil] at hcount
        omega
      · rintro ⟨-, h | h⟩
        · exact absurd h htorn
        · exact absurd h hafter

/-- A record of one step, for concrete runs. -/
def sampleRecord : WALRecord :=
  { WALRecord.zero with
    data := str "done"
    timestamp := ⟨str "2026-01-01T00:00:00Z", by decide⟩ }

/-- The record that is being written when the concrete runs crash. -/
def sampleLost : WALRecord := { sampleRecord with data := List.replicate 20 97 }

/-- The crash of the concrete runs leaves the length prefix of the lost record. -/
def sampleTorn : Str := putUint32 sampleLost.marshal.length

private theorem tornFrame_sampleTorn : TornFrame sampleTorn := by
  refine ⟨sampleLost, by decide +kernel, ?_, ?_⟩
  · simp only [walFrame, Frames.frame, append_assoc]
    exact prefix_append _ _
  · intro h
    have hlen := congrArg List.length h
    simp only [sampleTorn, walFrame, Frames.length_frame, length_putUint32] at hlen
    omega

private theorem jsonStable_sample (seq : ℤ) (now : Time) :
    JsonStable (WAL.stamp seq sampleRecord now) := by
  have hempty : ValidUtf8 [] := by decide
  have hdata : ValidUtf8 (str "done") := by decide
  apply WALRecord.Clean.unmarshal_marshal
  exact ⟨hempty, hempty, hdata, by simp [WAL.stamp, sampleRecord, WALRecord.zero],
    by simp [WAL.stamp, sampleRecord, WALRecord.zero]⟩

private theorem exists_append_sample (now : Time)
    (h : (WAL.stamp w.seq sampleRecord now).marshal.length ≤ maxUint32) :
    ∃ w', w.appendAll [(sampleRecord, now)] = .ok w' := by
  have hlen := WAL.walFrameLen_eq_ok.mpr ⟨rfl, h⟩
  simp only [WAL.appendAll, WAL.append, hlen]
  exact ⟨_, rfl⟩

private theorem seq_newWAL_sampleTorn (opts : WALOptions) : (newWAL opts sampleTorn).seq = 0 := by
  rw [newWAL, recoverSeq, replayWAL_torn tornFrame_sampleTorn]
  rfl

/-- A run that crashes after one record, with nothing appended later, is recovered. -/
theorem recovered_of_crash_at_end : ∃ c : CrashReopen,
    c.torn ≠ [] ∧ c.first.length = 1 ∧ c.recovered = c.first ++ c.second := by
  let opts : WALOptions := ⟨0, false⟩
  obtain ⟨w₁, hw₁⟩ := exists_append_sample (newWAL opts []) Time.zero (by decide +kernel)
  let c : CrashReopen :=
    ⟨opts, opts, [(sampleRecord, Time.zero)], sampleTorn, [], w₁, _, hw₁, tornFrame_sampleTorn, rfl⟩
  have hfirst : c.first = [WAL.stamp 0 sampleRecord Time.zero] := rfl
  have hsecond : c.second = [] := rfl
  refine ⟨c, by simp [c, sampleTorn, putUint32], by rw [hfirst]; rfl, ?_⟩
  refine (c.recovered_eq_iff ?_ ?_).mpr ⟨?_, Or.inr rfl⟩
  · rw [hfirst, hsecond]
    simpa using jsonStable_sample 0 Time.zero
  · intro _ data sum rest hsplit
    have hnone : Frames.splitFrame walMaxRecordSize (sampleTorn ++ walFrames []) = none := by
      decide +kernel
    rw [hsecond, hnone] at hsplit
    cases hsplit
  · rw [hfirst, hsecond]
    intro r hr
    obtain rfl : r = WAL.stamp 0 sampleRecord Time.zero := by simpa using hr
    decide +kernel

/-- A fresh log whose first append is cut after its length prefix loses the record appended after
reopening. -/
theorem not_recovered_behind_torn_tail :
    ¬ ∀ c : CrashReopen, (∀ r ∈ c.first ++ c.second, JsonStable r) →
      (c.torn ≠ [] → ChecksumRejects (c.torn ++ walFrames c.second)) →
        c.recovered = c.first ++ c.second := by
  intro hclaim
  let opts : WALOptions := ⟨0, false⟩
  obtain ⟨w₂, hw₂⟩ := exists_append_sample (newWAL opts sampleTorn) Time.zero (by
    rw [seq_newWAL_sampleTorn]
    decide +kernel)
  let c : CrashReopen :=
    ⟨opts, opts, [], sampleTorn, [(sampleRecord, Time.zero)], newWAL opts [], w₂, rfl,
      tornFrame_sampleTorn, hw₂⟩
  have hfirst : c.first = [] := rfl
  have hsecond : c.second = [WAL.stamp 0 sampleRecord Time.zero] := by
    change WAL.stampAll (newWAL opts sampleTorn).seq _ = _
    rw [seq_newWAL_sampleTorn]
    rfl
  have hreject : ChecksumRejects (c.torn ++ walFrames c.second) := by
    intro data sum rest hsplit
    have hnone : Frames.splitFrame walMaxRecordSize
        (sampleTorn ++ walFrames [WAL.stamp 0 sampleRecord Time.zero]) = none := by
      decide +kernel
    rw [hsecond, hnone] at hsplit
    cases hsplit
  have hrec := hclaim c (by
    rw [hfirst, hsecond]
    simpa using jsonStable_sample 0 Time.zero) fun _ => hreject
  rw [recovered, file_eq, hfirst] at hrec
  have hstop := replayWAL_of_checksumRejects hreject
  simp only [walFrames, Frames.frames, map_nil, flatMap_nil, nil_append] at hrec hstop
  rw [hstop, hsecond] at hrec
  cases hrec

end CrashReopen

end Workflow

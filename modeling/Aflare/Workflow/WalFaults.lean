import Aflare.Workflow.WalPrefix

/-!
# Compaction under file system failures

`Compact` closes the file of the log before it writes the snapshot, and opens it again after the
snapshot has taken its place. Every failure in between leaves a log whose writer still refers to
the closed file; a failed flush leaves a writer that reports its error for ever.

A `LogHandle` is a log together with the state of its file handle and of its buffered writer. Which
operations of a compaction fail is an argument of `LogHandle.compact`; all other operations fail
only where a closed file or a failed writer makes them fail.
-/

namespace Workflow

open Go List

/-- The file system operations of a compaction, in their order. -/
inductive CompactOp
  | flush
  | replay
  | close
  | createTmp
  | writeTmp
  | syncTmp
  | closeTmp
  | rename
  | reopen
  deriving DecidableEq

/-- Why a compaction fails. -/
inductive CompactError
  | op (op : CompactOp)
  | tooLarge

/-- A log with the state of its file handle and of its writer. -/
structure LogHandle where
  wal : WAL
  fileOpen : Bool
  /-- A `bufio.Writer` that has failed once fails from then on. -/
  writerErr : Bool

variable {h : LogHandle} {r : WALRecord}

namespace LogHandle

/-! ## Operations -/

/-- Go on unless the last operation has failed. -/
def andThen : LogHandle × Bool → (LogHandle → LogHandle × Bool) → LogHandle × Bool
  | (h, true), f => f h
  | (h, false), _ => (h, false)

/-- `bufio.Writer.Write`: to a closed file nothing can be written, but the buffer can be filled. -/
def write (h : LogHandle) (p : Str) : LogHandle × Bool :=
  if h.writerErr then (h, false)
  else if h.fileOpen then ({ h with wal := h.wal.write p }, true)
  else
    let room := walBufferSize - h.wal.buffer.length
    if p.length ≤ room then ({ h with wal := { h.wal with buffer := h.wal.buffer ++ p } }, true)
    else if h.wal.buffer = [] then ({ h with writerErr := true }, false)
    else
      ({ h with
          wal := { h.wal with buffer := h.wal.buffer ++ p.take room }
          writerErr := true }, false)

def flush (h : LogHandle) : LogHandle × Bool :=
  if h.writerErr then (h, false)
  else if h.wal.buffer = [] then (h, true)
  else if h.fileOpen then ({ h with wal := h.wal.flush }, true)
  else ({ h with writerErr := true }, false)

def sync (h : LogHandle) : LogHandle × Bool := (h, h.fileOpen)

/-- The three writes of a frame. -/
def writeFrame (h : LogHandle) (frameLen : ℕ) (data : Str) : LogHandle × Bool :=
  andThen (h.write (putUint32 frameLen)) fun h =>
  andThen (h.write data) fun h => h.write (putUint32 (checksumIEEE data).toNat)

/-- The end of `Append`, after the frame has been written. -/
def finishAppend (h : LogHandle) (dataLen : ℕ) : LogHandle × Bool :=
  let h :=
    { h with
      wal := { h.wal with bytesSinceCompaction := h.wal.bytesSinceCompaction + (4 + dataLen + 4) } }
  if h.wal.opts.syncEveryWrite then andThen h.flush sync else (h, true)

/-- `Append`. A failed write does not take the sequence number back. -/
def append (h : LogHandle) (r : WALRecord) (now : Time) : LogHandle × Bool :=
  let data := (WAL.stamp h.wal.seq r now).marshal
  match walFrameLen data.length with
  | .error _ => (h, false)
  | .ok frameLen =>
    let h := { h with wal := { h.wal with seq := h.wal.seq + 1 } }
    andThen (h.writeFrame frameLen data) fun h => h.finishAppend data.length

/-- Appends, each followed by `Flush`. -/
def appendFlushAll : LogHandle → List (WALRecord × Time) → LogHandle × Bool
  | h, [] => (h, true)
  | h, (r, now) :: ys => andThen (andThen (h.append r now) flush) fun h => h.appendFlushAll ys

/-- The end of a compaction, once the snapshot has been written. -/
def replaceFile (h : LogHandle) (fails : CompactOp → Bool) (snapshot : Str) (seq : ℤ) :
    LogHandle × Option CompactError :=
  if fails .syncTmp then (h, some (.op .syncTmp))
  else if fails .closeTmp then (h, some (.op .closeTmp))
  else if fails .rename then (h, some (.op .rename))
  else if fails .reopen then ({ h with wal := { h.wal with file := snapshot } }, some (.op .reopen))
  else
    (⟨{ h.wal with file := snapshot, buffer := [], bytesSinceCompaction := 0, seq := seq }, true,
      false⟩, none)

/-- The part of a compaction after the log has been read. -/
def writeSnapshot (h : LogHandle) (fails : CompactOp → Bool) : LogHandle × Option CompactError :=
  if fails .close || !h.fileOpen then ({ h with fileOpen := false }, some (.op .close))
  else
    let h := { h with fileOpen := false }
    if fails .createTmp then (h, some (.op .createTmp))
    else
      match mergeRecords (replayWAL h.wal.file) with
      | none => h.replaceFile fails [] h.wal.seq
      | some m =>
        match walFrameLen m.marshal.length with
        | .error _ => (h, some .tooLarge)
        | .ok _ =>
          if fails .writeTmp then (h, some (.op .writeTmp))
          else h.replaceFile fails (walFrame m) m.seq

/-- `Compact`, where the operations in `fails` fail when they are reached; a failed flush writes
the first `written` bytes of the buffer. -/
def compact (h : LogHandle) (fails : CompactOp → Bool) (written : ℕ) :
    LogHandle × Option CompactError :=
  if h.writerErr then (h, some (.op .flush))
  else if h.wal.buffer ≠ [] ∧ !h.fileOpen then ({ h with writerErr := true }, some (.op .flush))
  else if h.wal.buffer ≠ [] ∧ fails .flush then
    ({ h with
        wal := { h.wal with
          file := h.wal.file ++ h.wal.buffer.take written
          buffer := h.wal.buffer.drop written }
        writerErr := true }, some (.op .flush))
  else
    let h := { h with wal := h.wal.flush }
    if fails .replay then (h, some (.op .replay)) else h.writeSnapshot fails

/-! ## Healthy logs -/

/-- The file is open and the writer has not failed. -/
structure Healthy (h : LogHandle) : Prop where
  fileOpen : h.fileOpen = true
  writerErr : h.writerErr = false

/-- The handle of a log that is open. -/
def ofWal (w : WAL) : LogHandle := ⟨w, true, false⟩

theorem Healthy.eq_ofWal (hh : h.Healthy) : h = ofWal h.wal := by
  obtain ⟨wal, fileOpen, writerErr⟩ := h
  obtain ⟨rfl, rfl⟩ := hh
  rfl

variable (w : WAL)

theorem flush_ofWal : (ofWal w).flush = (ofWal w.flush, true) := by
  by_cases hempty : w.buffer = []
  · have hsame : w.flush = w := by
      rw [WAL.flush, hempty, append_nil, ← hempty]
    simp [flush, ofWal, hempty, hsame]
  · simp [flush, ofWal, hempty]

theorem finishAppend_ofWal (dataLen : ℕ) :
    (ofWal w).finishAppend dataLen =
      (ofWal (if w.opts.syncEveryWrite then
          { w with bytesSinceCompaction := w.bytesSinceCompaction + (4 + dataLen + 4) }.flush
        else { w with bytesSinceCompaction := w.bytesSinceCompaction + (4 + dataLen + 4) }),
        true) := by
  have hflush := flush_ofWal
    { w with bytesSinceCompaction := w.bytesSinceCompaction + (4 + dataLen + 4) }
  rw [ofWal] at hflush
  cases hsync : w.opts.syncEveryWrite with
  | true =>
    simp only [finishAppend, ofWal, hsync, if_true]
    rw [hflush]
    rfl
  | false => simp [finishAppend, ofWal, hsync]

variable {now : Time}

theorem append_ofWal {w w' : WAL} (h : w.append r now = .ok w') :
    (ofWal w).append r now = (ofWal w', true) := by
  obtain ⟨frameLen, hlen, h⟩ := bind_eq_ok.mp h
  have hwal : (ofWal w).wal = w := rfl
  rw [← Except.ok.inj h]
  simp only [append, hwal, hlen]
  exact finishAppend_ofWal _ _

theorem append_flush_ofWal {w w' : WAL} (h : w.append r now = .ok w') :
    andThen ((ofWal w).append r now) flush = (ofWal w'.flush, true) := by
  rw [append_ofWal h]
  exact flush_ofWal w'

/-- Appends that fit the length field all succeed on a healthy log. -/
theorem appendFlushAll_ofWal (ys : List (WALRecord × Time)) (w : WAL)
    (hys : ∀ r ∈ WAL.stampAll w.seq ys, r.marshal.length ≤ maxUint32) :
    ((ofWal w).appendFlushAll ys).2 = true ∧
      ((ofWal w).appendFlushAll ys).1.wal.log = w.log ++ walFrames (WAL.stampAll w.seq ys) ∧
      (ys ≠ [] → ((ofWal w).appendFlushAll ys).1.wal.buffer = []) := by
  induction ys generalizing w with
  | nil => simp [appendFlushAll, WAL.stampAll, walFrames, Frames.frames, ofWal]
  | cons y ys ih =>
    obtain ⟨r, now⟩ := y
    obtain ⟨w', hw'⟩ := w.exists_append_ok (hys _ mem_cons_self)
    obtain ⟨-, hlog, hseq⟩ := WAL.append_ok hw'
    have hflushed : w'.flush.seq = w.seq + 1 := hseq
    obtain ⟨hok, hlogs, hbuffer⟩ := ih w'.flush (by
      rw [hflushed]
      exact (forall_mem_of_forall_mem_cons hys))
    rw [appendFlushAll, append_flush_ofWal hw', andThen]
    refine ⟨hok, ?_, fun _ => ?_⟩
    · rw [hlogs, hflushed, WAL.log_flush, hlog, append_assoc, ← walFrames_singleton,
        ← walFrames_append]
      rfl
    · by_cases hempty : ys = []
      · subst hempty
        rfl
      · exact hbuffer hempty

/-! ## Broken logs -/

/-- The file is closed or the writer has failed. -/
def Broken (h : LogHandle) : Prop := h.fileOpen = false ∨ h.writerErr = true

/-- The next flush fails. -/
def Doomed (h : LogHandle) : Prop := h.writerErr = true ∨ (h.fileOpen = false ∧ h.wal.buffer ≠ [])

theorem Doomed.flush (hh : h.Doomed) : h.flush.2 = false := by
  rcases hh with herr | ⟨hclosed, hbuffer⟩
  · simp [LogHandle.flush, herr]
  · by_cases herr : h.writerErr = true
    · simp [LogHandle.flush, herr]
    · simp [LogHandle.flush, herr, hclosed, hbuffer]

theorem Broken.write (hh : h.Broken) {p : Str} (hok : (h.write p).2 = true) :
    (h.write p).1 = { h with wal := { h.wal with buffer := h.wal.buffer ++ p } } ∧
      h.fileOpen = false := by
  unfold LogHandle.write at hok ⊢
  rcases hh with hclosed | herr
  · by_cases herr : h.writerErr = true
    · simp [herr] at hok
    · simp only [herr, hclosed, Bool.false_eq_true, if_false] at hok ⊢
      split at hok
      · rename_i hroom
        simp [hroom]
      · split at hok <;> simp at hok
  · simp [herr] at hok

theorem andThen_true {x : LogHandle × Bool} {f : LogHandle → LogHandle × Bool}
    (h : (andThen x f).2 = true) : x.2 = true ∧ andThen x f = f x.1 := by
  match x, h with
  | (_, true), _ => exact ⟨rfl, rfl⟩

/-- A frame that a broken log takes in is in its buffer, and the file is closed. -/
theorem Broken.writeFrame (hh : h.Broken) {frameLen : ℕ} {data : Str}
    (hok : (h.writeFrame frameLen data).2 = true) :
    (h.writeFrame frameLen data).1.fileOpen = false ∧
      (h.writeFrame frameLen data).1.wal.buffer ≠ [] := by
  obtain ⟨hok₁, h₁⟩ := andThen_true hok
  rw [LogHandle.writeFrame] at hok ⊢
  rw [h₁] at hok ⊢
  obtain ⟨heq₁, hclosed⟩ := hh.write hok₁
  have hbroken₁ : (h.write (putUint32 frameLen)).1.Broken := by
    rw [heq₁]
    exact Or.inl hclosed
  obtain ⟨hok₂, h₂⟩ := andThen_true hok
  rw [h₂] at hok ⊢
  obtain ⟨heq₂, hclosed₂⟩ := hbroken₁.write hok₂
  have hbroken₂ : ((h.write (putUint32 frameLen)).1.write data).1.Broken := by
    rw [heq₂]
    exact Or.inl hclosed₂
  obtain ⟨heq₃, hclosed₃⟩ := hbroken₂.write hok
  rw [heq₃]
  exact ⟨hclosed₃, by simp [putUint32]⟩

theorem doomed_finishAppend (hclosed : h.fileOpen = false)
    (hbuffer : h.wal.buffer ≠ []) {dataLen : ℕ} (hok : (h.finishAppend dataLen).2 = true) :
    (h.finishAppend dataLen).1.Doomed := by
  have hdoomed : Doomed { h with
      wal := { h.wal with
        bytesSinceCompaction := h.wal.bytesSinceCompaction + (4 + dataLen + 4) } } :=
    Or.inr ⟨hclosed, hbuffer⟩
  unfold finishAppend at hok ⊢
  dsimp only at hok ⊢
  split at hok
  · -- an append that flushes by itself fails
    have hflush := (andThen_true hok).1.symm.trans hdoomed.flush
    cases hflush
  · rename_i hsync
    rw [if_neg hsync]
    exact hdoomed

theorem Broken.append (hh : h.Broken)
    (hok : (h.append r now).2 = true) : (h.append r now).1.Doomed := by
  cases hlen : walFrameLen (WAL.stamp h.wal.seq r now).marshal.length with
  | error e => simp [LogHandle.append, hlen] at hok
  | ok frameLen =>
    simp only [LogHandle.append, hlen] at hok ⊢
    have hbroken : Broken { h with wal := { h.wal with seq := h.wal.seq + 1 } } := hh
    obtain ⟨hframe, heq⟩ := andThen_true hok
    rw [heq] at hok ⊢
    obtain ⟨hclosed, hbuffer⟩ := hbroken.writeFrame hframe
    exact doomed_finishAppend hclosed hbuffer hok

theorem Broken.append_flush (hh : h.Broken) (r : WALRecord) (now : Time) :
    (andThen (h.append r now) flush).2 = false := by
  by_contra hok
  have hok : (andThen (h.append r now) flush).2 = true := by simpa using hok
  obtain ⟨happend, heq⟩ := andThen_true hok
  rw [heq, (hh.append happend).flush] at hok
  cases hok

/-! ## Compaction -/

variable {seq : ℤ}

section Compact

variable (w : WAL) (fails : CompactOp → Bool) (written : ℕ)

/-- The failures that a compaction meets after it has read the log, up to the size of the snapshot.
The snapshot is not written if the log has no records. -/
def SnapshotFails : Prop :=
  (∃ op, op ∈ [.close, .createTmp, .syncTmp, .closeTmp, .rename, .reopen] ∧ fails op) ∨
    ∃ m ∈ mergeRecords (replayWAL w.file), maxUint32 < m.marshal.length ∨ fails .writeTmp

/-- The file that a compaction puts in the place of the log. -/
def compacted (file : Str) : Str := ((mergeRecords (replayWAL file)).map walFrame).getD []

/-- The log after a compaction. -/
def afterCompact (w : WAL) : WAL :=
  { w with
    file := compacted w.file
    buffer := []
    bytesSinceCompaction := 0
    seq := ((mergeRecords (replayWAL w.file)).map WALRecord.seq).getD w.seq }

/-- What the end of a compaction can do with a closed log. -/
theorem replaceFile_cases (snapshot : Str) (seq : ℤ) :
    ((∃ op ∈ [CompactOp.syncTmp, .closeTmp, .rename, .reopen], fails op = true) ∧
      ∃ e, replaceFile ⟨w, false, false⟩ fails snapshot seq = (⟨w, false, false⟩, some e) ∨
        replaceFile ⟨w, false, false⟩ fails snapshot seq =
          (⟨{ w with file := snapshot }, false, false⟩, some e)) ∨
    ((∀ op ∈ [CompactOp.syncTmp, .closeTmp, .rename, .reopen], fails op = false) ∧
      replaceFile ⟨w, false, false⟩ fails snapshot seq =
        (ofWal { w with
          file := snapshot, buffer := [], bytesSinceCompaction := 0, seq := seq }, none)) := by
  unfold replaceFile
  split_ifs with hsync hclose hrename hreopen
  · exact Or.inl ⟨⟨_, by simp, hsync⟩, _, Or.inl rfl⟩
  · exact Or.inl ⟨⟨_, by simp, hclose⟩, _, Or.inl rfl⟩
  · exact Or.inl ⟨⟨_, by simp, hrename⟩, _, Or.inl rfl⟩
  · exact Or.inl ⟨⟨_, by simp, hreopen⟩, _, Or.inr rfl⟩
  · exact Or.inr ⟨by simp_all, rfl⟩

/-- The end of a compaction whose snapshot has been written. -/
theorem replaceFile_snapshot {snapshot : Str}
    (hsnapshot : compacted w.file = snapshot)
    (hseq : ((mergeRecords (replayWAL w.file)).map WALRecord.seq).getD w.seq = seq)
    (hbefore : fails .close = false ∧ fails .createTmp = false)
    (hwritten : ∀ m ∈ mergeRecords (replayWAL w.file),
      m.marshal.length ≤ maxUint32 ∧ fails .writeTmp = false) :
    (SnapshotFails w fails ∧ ∃ file e, (file = w.file ∨ file = compacted w.file) ∧
      replaceFile ⟨w, false, false⟩ fails snapshot seq =
        (⟨{ w with file := file }, false, false⟩, some e)) ∨
    (¬ SnapshotFails w fails ∧
      replaceFile ⟨w, false, false⟩ fails snapshot seq = (ofWal (afterCompact w), none)) := by
  rcases replaceFile_cases w fails snapshot seq with ⟨⟨op, hop, hfails⟩, e, hres | hres⟩ |
    ⟨hall, hres⟩
  · exact Or.inl ⟨Or.inl ⟨op, by simp_all, hfails⟩, w.file, e, Or.inl rfl, hres⟩
  · exact Or.inl ⟨Or.inl ⟨op, by simp_all, hfails⟩, snapshot, e, Or.inr hsnapshot.symm, hres⟩
  · refine Or.inr ⟨?_, ?_⟩
    · rintro (⟨op, hop, hfails⟩ | ⟨m, hm, hlarge | hfails⟩)
      · simp only [mem_cons, not_mem_nil, or_false] at hop
        rcases hop with rfl | rfl | rfl | rfl | rfl | rfl <;> simp_all
      · exact absurd (hwritten m hm).1 (not_le.mpr hlarge)
      · simp [(hwritten m hm).2] at hfails
    · rw [hres, afterCompact, hsnapshot, hseq]

/-- What a compaction can do after it has read the log: it fails and leaves a closed handle, with
the log or, if only the reopening fails, the compacted log; or it succeeds. -/
theorem writeSnapshot_cases :
    (SnapshotFails w fails ∧ ∃ file e, (file = w.file ∨ file = compacted w.file) ∧
      (ofWal w).writeSnapshot fails = (⟨{ w with file := file }, false, false⟩, some e)) ∨
    (¬ SnapshotFails w fails ∧ (ofWal w).writeSnapshot fails = (ofWal (afterCompact w), none)) := by
  by_cases hclose : fails .close = true
  · refine Or.inl ⟨Or.inl ⟨_, by simp, hclose⟩, w.file, .op .close, Or.inl rfl, ?_⟩
    simp [writeSnapshot, ofWal, hclose]
  by_cases hcreate : fails .createTmp = true
  · refine Or.inl ⟨Or.inl ⟨_, by simp, hcreate⟩, w.file, .op .createTmp, Or.inl rfl, ?_⟩
    simp [writeSnapshot, ofWal, hclose, hcreate]
  have hbefore : fails .close = false ∧ fails .createTmp = false := by simp_all
  cases hm : mergeRecords (replayWAL w.file) with
  | none =>
    have hres : (ofWal w).writeSnapshot fails = replaceFile ⟨w, false, false⟩ fails [] w.seq := by
      simp [writeSnapshot, ofWal, hclose, hcreate, hm]
    rw [hres]
    exact replaceFile_snapshot w fails (by simp [compacted, hm]) (by simp [hm]) hbefore
      (by simp [hm])
  | some m =>
    by_cases hlarge : maxUint32 < m.marshal.length
    · refine Or.inl ⟨Or.inr ⟨m, hm, Or.inl hlarge⟩, w.file, .tooLarge, Or.inl rfl, ?_⟩
      simp [writeSnapshot, ofWal, hclose, hcreate, hm, walFrameLen, hlarge]
    by_cases hwrite : fails .writeTmp = true
    · refine Or.inl ⟨Or.inr ⟨m, hm, Or.inr hwrite⟩, w.file, .op .writeTmp, Or.inl rfl, ?_⟩
      simp [writeSnapshot, ofWal, hclose, hcreate, hm, walFrameLen, hlarge, hwrite]
    have hres : (ofWal w).writeSnapshot fails =
        replaceFile ⟨w, false, false⟩ fails (walFrame m) m.seq := by
      simp [writeSnapshot, ofWal, hclose, hcreate, hm, walFrameLen, hlarge, hwrite]
    rw [hres]
    refine replaceFile_snapshot w fails (by simp [compacted, hm]) (by simp [hm]) hbefore ?_
    intro m' hm'
    obtain rfl : m = m' := Option.some.inj (hm.symm.trans hm')
    exact ⟨not_lt.mp hlarge, by simpa using hwrite⟩

theorem compact_cases :
    ((w.buffer ≠ [] ∧ fails .flush = true) ∧
      ∃ h', h'.Broken ∧ h'.wal.seq = w.seq ∧
        (ofWal w).compact fails written = (h', some (.op .flush))) ∨
    ((w.buffer = [] ∨ fails .flush = false) ∧
      (ofWal w).compact fails written =
        if fails .replay then (ofWal w.flush, some (.op .replay))
        else (ofWal w.flush).writeSnapshot fails) := by
  by_cases hflush : w.buffer ≠ [] ∧ fails .flush = true
  · refine Or.inl ⟨hflush,
      ⟨{ w with file := w.file ++ w.buffer.take written, buffer := w.buffer.drop written }, true,
        true⟩, Or.inr rfl, rfl, ?_⟩
    rw [compact, if_neg (by simp [ofWal]), if_neg (by simp [ofWal])]
    exact if_pos hflush
  · refine Or.inr ⟨?_, ?_⟩
    · by_contra hnot
      simp_all
    · rw [compact, if_neg (by simp [ofWal]), if_neg (by simp [ofWal])]
      exact if_neg hflush

/-- A compaction succeeds only if the merged record fits a frame. -/
theorem compact_eq_ok {w w' : WAL} (h : w.compact = .ok w') :
    w' = afterCompact w.flush ∧
      ∀ m ∈ mergeRecords (replayWAL w.flush.file), m.marshal.length ≤ maxUint32 := by
  simp only [WAL.compact] at h
  cases hm : mergeRecords (replayWAL w.flush.file) with
  | none =>
    rw [hm] at h
    refine ⟨?_, by simp⟩
    rw [← Except.ok.inj h]
    simp only [afterCompact, compacted, hm]
    rfl
  | some m =>
    rw [hm] at h
    cases hlen : walFrameLen m.marshal.length with
    | error e => simp [hlen] at h
    | ok n =>
      simp only [hlen] at h
      refine ⟨?_, ?_⟩
      · rw [← Except.ok.inj h]
        simp only [afterCompact, compacted, hm]
        rfl
      · rintro m' ⟨⟩
        exact (WAL.walFrameLen_eq_ok.mp hlen).2

/-- Without failures the handle compacts as `WAL.compact` does. -/
theorem compact_eq {w' : WAL} (h : w.compact = .ok w') :
    (ofWal w).compact (fun _ => false) written = (ofWal w', none) := by
  obtain ⟨hafter, hsize⟩ := compact_eq_ok h
  obtain ⟨⟨-, hfails⟩, -⟩ | ⟨-, hres⟩ := compact_cases w (fun _ => false) written
  · cases hfails
  rw [hres]
  obtain ⟨hfails, -⟩ | ⟨-, hsnap⟩ := writeSnapshot_cases w.flush fun _ => false
  · rcases hfails with ⟨op, -, hop⟩ | ⟨m, hm, hlarge | hop⟩
    · cases hop
    · exact absurd (hsize m hm) (not_le.mpr hlarge)
    · cases hop
  · simp only [Bool.false_eq_true, if_false, hsnap, hafter]

end Compact

/-! ## The state on disk -/

/-- Two files give the same state, or recovery panics on both. -/
def FoldsAlike : Option (Option WorkflowState) → Option (Option WorkflowState) → Prop
  | some s, some s' => SameState s s'
  | none, none => True
  | _, _ => False

theorem FoldsAlike.refl (x : Option (Option WorkflowState)) : FoldsAlike x x := by
  match x with
  | none => trivial
  | some none => trivial
  | some (some s) => exact ⟨rfl, rfl, rfl, rfl, rfl⟩

/-! ## Usable logs -/

/-- Appends within the reader's cap, each followed by a flush, succeed, and they are replayed with
sequence numbers above all earlier ones. -/
def Usable (h : LogHandle) : Prop :=
  ∀ ys, ys ≠ [] → (∀ r ∈ WAL.stampAll h.wal.seq ys, r.marshal.length ≤ walMaxRecordSize) →
    (h.appendFlushAll ys).2 = true ∧
      ∃ earlier, replayWAL (h.appendFlushAll ys).1.wal.file =
          earlier ++ (WAL.stampAll h.wal.seq ys).map WALRecord.clean ∧
        ∀ q ∈ earlier, ∀ r ∈ WAL.stampAll h.wal.seq ys, q.seq < r.seq

/-- Whether a healthy log is usable depends on what has been written to it, flushed or not. -/
theorem usable_ofWal_iff :
    (ofWal w).Usable ↔
      ∀ ys, ys ≠ [] → (∀ r ∈ WAL.stampAll w.seq ys, r.marshal.length ≤ walMaxRecordSize) →
        ∃ earlier, replayWAL (w.log ++ walFrames (WAL.stampAll w.seq ys)) =
            earlier ++ (WAL.stampAll w.seq ys).map WALRecord.clean ∧
          ∀ q ∈ earlier, ∀ r ∈ WAL.stampAll w.seq ys, q.seq < r.seq := by
  have hcap : walMaxRecordSize ≤ maxUint32 := by decide
  refine forall_congr' fun ys => imp_congr_right fun hne => imp_congr_right fun hfits => ?_
  obtain ⟨hok, hlog, hbuffer⟩ := appendFlushAll_ofWal ys w fun r hr => (hfits r hr).trans hcap
  have hfile : ((ofWal w).appendFlushAll ys).1.wal.file =
      w.log ++ walFrames (WAL.stampAll w.seq ys) := by
    rw [← hlog, WAL.log, hbuffer hne, append_nil]
  rw [hfile]
  exact and_iff_right hok

theorem usable_openLog (l : OpenLog) (hseq : ∀ r ∈ l.records, r.seq ≤ l.wal.seq) :
    (ofWal l.wal).Usable := by
  rw [usable_ofWal_iff]
  intro ys _ hfits
  refine ⟨l.records.map WALRecord.clean, ?_, ?_⟩
  · rw [l.holds.log_eq, replayWAL_append l.holds.fits, replayWAL_walFrames hfits]
  · intro q hq r hr
    obtain ⟨q', hq', rfl⟩ := mem_map.mp hq
    exact (hseq q' hq').trans_lt (WAL.lt_seq_stampAll ys l.wal.seq r hr)

theorem length_marshal_seq (r : WALRecord) (seq : ℤ) :
    { r with seq := seq }.marshal.length + (itoa r.seq).length =
      r.marshal.length + (itoa seq).length :=
  Value.length_render_obj_replace .compact 0 (str "seq") (.num (itoa seq)) (.num (itoa r.seq)) []
    r.members.tail

theorem fits_letterRecord (hpos : 0 ≤ seq) (hint64 : seq + 1 < 2 ^ 63) :
    (WAL.stamp seq (letterRecord 0) Time.zero).marshal.length ≤ walMaxRecordSize := by
  obtain ⟨n, rfl⟩ := Int.eq_ofNat_of_zero_le hpos
  have hdigits : (itoa ((n : ℤ) + 1)).length ≤ 19 := by
    have hitoa : itoa ((n : ℤ) + 1) = natDigits (n + 1) := rfl
    rw [hitoa, natDigits, length_map]
    exact (Nat.length_toDigits_le_iff (by norm_num) (by norm_num)).mpr (by omega)
  have hlen := length_marshal_seq (WAL.stamp 0 (letterRecord 0) Time.zero) (n + 1)
  have hsmall := (bounds_letterRecord 0).2
  have hcap : 219 ≤ walMaxRecordSize := by decide
  change (WAL.stamp n (letterRecord 0) Time.zero).marshal.length + _ = _ at hlen
  omega

theorem Broken.not_usable (hbroken : h.Broken) (hpos : 0 ≤ h.wal.seq)
    (hint64 : h.wal.seq + 1 < 2 ^ 63) : ¬ h.Usable := by
  intro husable
  have hok := (husable [(letterRecord 0, Time.zero)] (by simp) (by
    intro r hr
    obtain rfl := mem_singleton.mp hr
    exact fits_letterRecord hpos hint64)).1
  have hfail := hbroken.append_flush (letterRecord 0) Time.zero
  rw [(andThen_true hok).1] at hfail
  cases hfail

theorem Usable.healthy (husable : h.Usable) (hpos : 0 ≤ h.wal.seq)
    (hint64 : h.wal.seq + 1 < 2 ^ 63) : h.Healthy := by
  by_contra hnot
  have hbroken : h.Broken := by
    by_contra hb
    obtain ⟨hopen, herr⟩ := not_or.mp hb
    exact hnot ⟨by simpa using hopen, by simpa using herr⟩
  exact hbroken.not_usable hpos hint64 husable

/-- If a compaction fails, the log on disk folds to the same state as before, and the log is still
usable. -/
def FailureAtomic (h : LogHandle) (fails : CompactOp → Bool) (written : ℕ) : Prop :=
  ∀ e, (h.compact fails written).2 = some e →
    FoldsAlike (loadStateWAL h.wal.log) (loadStateWAL (h.compact fails written).1.wal.file) ∧
      (h.compact fails written).1.Usable

end LogHandle

/-- On a usable log, a compaction is failure-atomic exactly when its flush does not fail, and
either the reading of the log fails, or nothing after that and the snapshot is not too large. -/
theorem compact_failureAtomic_iff {h : LogHandle} (husable : h.Usable) (hpos : 0 ≤ h.wal.seq)
    (hint64 : h.wal.seq + 1 < 2 ^ 63) (fails : CompactOp → Bool) (written : ℕ) :
    h.FailureAtomic fails written ↔
      (h.wal.buffer = [] ∨ fails .flush = false) ∧
        (fails .replay = true ∨ ¬ LogHandle.SnapshotFails h.wal.flush fails) := by
  obtain ⟨w, rfl⟩ : ∃ w, h = .ofWal w := ⟨h.wal, (husable.healthy hpos hint64).eq_ofWal⟩
  change 0 ≤ w.seq at hpos
  change w.seq + 1 < 2 ^ 63 at hint64
  constructor
  · intro hatomic
    obtain ⟨-, h', hbroken, hseq, hres⟩ | ⟨hflush, hres⟩ := LogHandle.compact_cases w fails written
    · have hkept := (hatomic (.op .flush) (by rw [hres])).2
      rw [hres] at hkept
      exact absurd hkept (hbroken.not_usable (by rwa [hseq]) (by rwa [hseq]))
    · refine ⟨hflush, ?_⟩
      by_contra hnot
      obtain ⟨hreplay, hsnap⟩ := not_or.mp hnot
      rw [if_neg hreplay] at hres
      -- the handle has been closed and is not opened again
      obtain ⟨-, file, e, -, hclosed⟩ | ⟨hok, -⟩ := LogHandle.writeSnapshot_cases w.flush fails
      · have hkept := (hatomic e (by rw [hres, hclosed])).2
        rw [hres, hclosed] at hkept
        exact absurd hkept (LogHandle.Broken.not_usable (Or.inl rfl) hpos hint64)
      · exact hsnap hok
  · rintro ⟨hflush, hrest⟩ e herr
    obtain ⟨⟨hbuffer, hfails⟩, -⟩ | ⟨-, hres⟩ := LogHandle.compact_cases w fails written
    · rcases hflush with hempty | hok
      · exact absurd hempty hbuffer
      · simp [hok] at hfails
    by_cases hreplay : fails .replay = true
    · -- only the flush has happened
      rw [hres, if_pos hreplay]
      refine ⟨LogHandle.FoldsAlike.refl _, ?_⟩
      rw [LogHandle.usable_ofWal_iff] at husable ⊢
      rw [WAL.log_flush]
      exact husable
    · rw [hres, if_neg hreplay] at herr
      obtain ⟨hfails, -⟩ | ⟨-, hok⟩ := LogHandle.writeSnapshot_cases w.flush fails
      · exact absurd hfails (hrest.resolve_left hreplay)
      · rw [hok] at herr
        cases herr

/-- The log of two records of the concrete runs. -/
def sampleHandle : LogHandle := .ofWal sampleLog.wal

theorem usable_sampleHandle : sampleHandle.Usable :=
  LogHandle.usable_openLog sampleLog (by
    intro r hr
    rcases mem_pair.mp hr with rfl | rfl <;> decide)

/-- A compaction that cannot open the log for reading leaves it as it was. -/
theorem compact_failureAtomic_sampleHandle :
    (sampleHandle.compact (· = .replay) 0).2.isSome ∧
      sampleHandle.FailureAtomic (· = .replay) 0 := by
  refine ⟨rfl, ?_⟩
  exact (compact_failureAtomic_iff usable_sampleHandle (by decide) (by decide) _ 0).mpr
    ⟨Or.inl rfl, Or.inl rfl⟩

/-- A compaction that cannot create its temporary file leaves a log to which nothing can be
appended and flushed. -/
theorem not_compact_failureAtomic :
    sampleHandle.Usable ∧ (sampleHandle.compact (· = .createTmp) 0).2.isSome ∧
      (LogHandle.andThen
        ((sampleHandle.compact (· = .createTmp) 0).1.append (letterRecord 0) Time.zero)
        LogHandle.flush).2 = false ∧
      ¬ sampleHandle.FailureAtomic (· = .createTmp) 0 := by
  have hbroken : (sampleHandle.compact (· = .createTmp) 0).1.Broken := Or.inl rfl
  refine ⟨usable_sampleHandle, rfl, hbroken.append_flush _ _, fun hatomic => ?_⟩
  exact hbroken.not_usable (by decide) (by decide) (hatomic (.op .createTmp) rfl).2

end Workflow

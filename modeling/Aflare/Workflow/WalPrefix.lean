import Aflare.Go.JsonSize
import Aflare.Workflow.WalRecovery

/-!
# Recovery from a log that is cut off anywhere

A crash can leave any front of the bytes that have been appended to a log. The reader is to give
the records whose frames are wholly there. It stops at a frame whose length field is above its cap,
although `Append` accepts every length that fits the field.
-/

namespace Workflow

open Go List

/-- The longest front of the appended records whose frames are wholly in the file. -/
structure LongestWhole (records : List WALRecord) (file : Str) (front : List WALRecord) : Prop where
  isPrefix : front <+: records
  whole : walFrames front <+: file
  longest : ∀ other, other <+: records → walFrames other <+: file → other <+: front

/-- The sequence numbers go up from record to record. -/
def Increasing (records : List WALRecord) : Prop := records.Pairwise (·.seq < ·.seq)

theorem LongestWhole.unique {records front front' : List WALRecord} {file : Str}
    (h : LongestWhole records file front) (h' : LongestWhole records file front') :
    front = front' :=
  (h'.longest front h.isPrefix h.whole).eq_of_length_le
    (h.longest front' h'.isPrefix h'.whole).length_le

theorem walFrames_isPrefix {rs rs' : List WALRecord} (h : rs <+: rs') :
    walFrames rs <+: walFrames rs' := by
  obtain ⟨t, rfl⟩ := h
  rw [walFrames_append]
  exact prefix_append _ _

namespace WAL

variable (rs : List (WALRecord × Time))

theorem lt_seq_stampAll (seq : ℤ) : ∀ r ∈ stampAll seq rs, seq < r.seq := by
  induction rs generalizing seq with
  | nil => simp [stampAll]
  | cons p rs ih =>
    refine forall_mem_cons.mpr ⟨Int.lt_succ seq, fun r hr => ?_⟩
    exact (Int.lt_succ seq).trans (ih (seq + 1) r hr)

theorem increasing_stampAll (seq : ℤ) : Increasing (stampAll seq rs) := by
  induction rs generalizing seq with
  | nil => exact List.Pairwise.nil
  | cons p rs ih => exact List.Pairwise.cons (lt_seq_stampAll rs (seq + 1)) (ih (seq + 1))

theorem file_of_appendAll {opts : WALOptions} {rs : List (WALRecord × Time)} {w : WAL}
    (h : (newWAL opts []).appendAll rs = .ok w) : w.flush.file = walFrames (stampAll 0 rs) := by
  rw [file_flush, (appendAll_ok h).2]
  rfl

end WAL

/-- From a cut of the frames of records within the reader's cap, the longest front that is wholly
there is read. -/
theorem longestWhole_take {records : List WALRecord} (hjson : ∀ r ∈ records, JsonStable r)
    (hfits : ∀ r ∈ records, r.marshal.length ≤ walMaxRecordSize) (n : ℕ) :
    LongestWhole records ((walFrames records).take n) (replayWAL ((walFrames records).take n)) := by
  obtain ⟨k, hle, hlt, hreplay⟩ : ∃ k, (walFrames (records.take k)).length ≤ n ∧
      (k < records.length → n < (walFrames (records.take (k + 1))).length) ∧
      replayWAL ((walFrames records).take n) = (records.take k).map id :=
    Frames.replay_take (by decide)
      (fun r hr => ⟨r.marshal_ne_nil, hfits r hr, hjson r hr⟩) n
  rw [hreplay, map_id]
  refine ⟨ take_prefix k records, ?_, fun other hother hwhole => ?_⟩
  · rw [prefix_take_iff]
    exact ⟨walFrames_isPrefix <| take_prefix k records, hle⟩
  · obtain ⟨j, rfl⟩ : ∃ j, other = records.take j := ⟨_, prefix_iff_eq_take.mp hother⟩
    have hlen := (prefix_take_iff.mp hwhole).2
    by_contra hlonger
    -- a longer front holds the first frame that is cut off
    have hk : k < records.length := by
      by_contra hall
      rw [take_of_length_le (not_lt.mp hall)] at hlonger
      exact hlonger <| take_prefix j records
    have hkj : k + 1 ≤ j := by
      by_contra hj
      exact hlonger (take_prefix_take_left (by omega))
    have hcut := (walFrames_isPrefix (take_prefix_take_left hkj :
      records.take (k + 1) <+: records.take j)).length_le
    have := hlt hk
    omega

/-- From every cut of a log the longest front of the appended records whose frames are wholly there
is read, with increasing numbers, exactly when all records are within the reader's cap. -/
theorem prefix_recovery_iff {opts : WALOptions} {rs : List (WALRecord × Time)} {w : WAL}
    (happend : (newWAL opts []).appendAll rs = .ok w)
    (hjson : ∀ r ∈ WAL.stampAll 0 rs, JsonStable r) :
    (∀ n, LongestWhole (WAL.stampAll 0 rs) (w.flush.file.take n)
        (replayWAL (w.flush.file.take n)) ∧ Increasing (replayWAL (w.flush.file.take n))) ↔
      ∀ r ∈ WAL.stampAll 0 rs, r.marshal.length ≤ walMaxRecordSize := by
  rw [WAL.file_of_appendAll happend]
  constructor
  · intro hcuts
    -- the file that is not cut holds all records
    have hall := (hcuts (walFrames (WAL.stampAll 0 rs)).length).1
    rw [take_length] at hall
    have hwhole : LongestWhole (WAL.stampAll 0 rs) (walFrames (WAL.stampAll 0 rs))
        (WAL.stampAll 0 rs) := ⟨prefix_rfl, prefix_rfl, fun _ h _ => h⟩
    have heq := hall.unique hwhole
    have henc : ∀ r ∈ WAL.stampAll 0 rs, r.marshal ≠ [] ∧ r.marshal.length < 2 ^ 32 ∧
        WALRecord.unmarshal r.marshal = some (id r) := by
      intro r hr
      have hlen := (WAL.appendAll_ok happend).1 r hr
      exact ⟨r.marshal_ne_nil, lt_of_le_of_lt hlen (by decide), hjson r hr⟩
    have hiff := Frames.replay_frames_eq_iff (by decide) henc
      (Frames.replay_nil checksumIEEE walMaxRecordSize WALRecord.unmarshal)
    rw [append_nil, map_id] at hiff
    exact hiff.mp heq
  · intro hfits n
    have hlongest := longestWhole_take hjson hfits n
    exact ⟨hlongest, (WAL.increasing_stampAll rs 0).sublist hlongest.isPrefix.sublist⟩

/-! ## A record between the two limits -/

/-- A record whose data is a run of one letter. -/
def letterRecord (n : ℕ) : WALRecord := { WALRecord.zero with data := List.replicate n 97 }

variable (n : ℕ)

theorem jsonStable_letterRecord (seq : ℤ) (now : Time) :
    JsonStable (WAL.stamp seq (letterRecord n) now) := by
  have hempty : ValidUtf8 [] := by decide
  have hdata : ValidUtf8 (List.replicate n 97) := (plain_replicate (by decide) n).validUtf8
  apply WALRecord.Clean.unmarshal_marshal
  exact ⟨hempty, hempty, hdata, by simp [WAL.stamp, letterRecord, WALRecord.zero],
    by simp [WAL.stamp, letterRecord, WALRecord.zero]⟩

/-- The text of such a record grows by one byte for each letter. -/
theorem length_letterRecord :
    (WAL.stamp 0 (letterRecord n) Time.zero).marshal.length =
      (WAL.stamp 0 (letterRecord 0) Time.zero).marshal.length + n := by
  have hletters := Value.length_render_obj_letters .compact 0 (str "data")
    ((WAL.stamp 0 (letterRecord 0) Time.zero).members.take 4)
    ((WAL.stamp 0 (letterRecord 0) Time.zero).members.drop 5) (b := 97) (by decide) n
  exact hletters

theorem bounds_letterRecord :
    n < (WAL.stamp 0 (letterRecord n) Time.zero).marshal.length ∧
      (WAL.stamp 0 (letterRecord n) Time.zero).marshal.length ≤ n + 200 := by
  have hsmall : 0 < (WAL.stamp 0 (letterRecord 0) Time.zero).marshal.length ∧
      (WAL.stamp 0 (letterRecord 0) Time.zero).marshal.length ≤ 200 := by decide +kernel
  rw [length_letterRecord]
  omega

/-- The log of one such record. -/
def letterLog (n : ℕ) : List (WALRecord × Time) := [(letterRecord n, Time.zero)]

theorem stampAll_letterLog :
    WAL.stampAll 0 (letterLog n) = [WAL.stamp 0 (letterRecord n) Time.zero] := rfl

theorem exists_append_letterLog {n : ℕ} (hn : n + 200 ≤ maxUint32) :
    ∃ w, (newWAL ⟨0, false⟩ []).appendAll (letterLog n) = .ok w := by
  apply WAL.exists_appendAll_ok
  intro r hr
  obtain rfl := mem_singleton.mp hr
  exact (bounds_letterRecord n).2.trans hn

/-- A small record is read back from every file that holds it. -/
theorem prefix_recovery_letterLog : ∃ w, (newWAL ⟨0, false⟩ []).appendAll (letterLog 3) = .ok w ∧
    ∀ n, LongestWhole (WAL.stampAll 0 (letterLog 3)) (w.flush.file.take n)
      (replayWAL (w.flush.file.take n)) := by
  obtain ⟨w, hw⟩ := exists_append_letterLog (n := 3) (by decide)
  refine ⟨w, hw, fun n => ?_⟩
  refine ((prefix_recovery_iff hw ?_).mpr ?_ n).1
  · intro r hr
    obtain rfl := mem_singleton.mp hr
    exact jsonStable_letterRecord 3 0 Time.zero
  · intro r hr
    obtain rfl := mem_singleton.mp hr
    exact (bounds_letterRecord 3).2.trans (by decide)

/-- `Append` accepts a record of 64 MiB of data, which is in the file and is not read. -/
theorem not_prefix_recovery :
    ∃ w, (newWAL ⟨0, false⟩ []).appendAll (letterLog walMaxRecordSize) = .ok w ∧
      (∀ r ∈ WAL.stampAll 0 (letterLog walMaxRecordSize), JsonStable r) ∧
      replayWAL w.flush.file = [] ∧
      ¬ LongestWhole (WAL.stampAll 0 (letterLog walMaxRecordSize)) w.flush.file
        (replayWAL w.flush.file) := by
  obtain ⟨w, hw⟩ := exists_append_letterLog (n := walMaxRecordSize) (by decide)
  have hfile := WAL.file_of_appendAll hw
  have hnothing : replayWAL w.flush.file = [] := by
    have hread := Frames.readFrame_frame_of_lt checksumIEEE walMaxRecordSize
      ((bounds_letterRecord walMaxRecordSize).2.trans_lt (by decide))
      (bounds_letterRecord walMaxRecordSize).1 []
    rw [hfile, stampAll_letterLog, walFrames_singleton, walFrame]
    rw [append_nil] at hread
    exact Frames.replay_of_readFrame_none _ _ _ hread
  refine ⟨w, hw, ?_, hnothing, fun hlongest => ?_⟩
  · intro r hr
    obtain rfl := mem_singleton.mp hr
    exact jsonStable_letterRecord walMaxRecordSize 0 Time.zero
  · -- the whole list is a front whose frames are in the file
    rw [hnothing, hfile] at hlongest
    have hempty := hlongest.longest _ prefix_rfl prefix_rfl
    rw [stampAll_letterLog] at hempty
    simp at hempty

end Workflow

import Aflare.Go.Binary

/-!
# Length-prefixed frames with a checksum

A log of frames, each a payload between its length and its checksum, and the reader that stops at
the first frame it cannot accept. The checksum, the largest payload the reader accepts and the
decoder of payloads are parameters.
-/

namespace Frames

open List

variable {R : Type} (checksum : List UInt8 → UInt32) (maxLen : ℕ)
  (decode : List UInt8 → Option R)

/-- The bytes of one payload: its length, the payload, its checksum. -/
def frame (payload : List UInt8) : List UInt8 :=
  Go.putUint32 payload.length ++ payload ++ Go.putUint32 (checksum payload).toNat

/-- The concatenated frames of some payloads. -/
def frames (payloads : List (List UInt8)) : List UInt8 := payloads.flatMap (frame checksum)

/-- The payload, the checksum field and what follows, when a whole frame of an admissible length
stands at the start of the bytes. -/
def splitFrame (bytes : List UInt8) : Option (List UInt8 × ℕ × List UInt8) :=
  if bytes.length < 4 then none
  else
    let len := Go.uint32 bytes
    let body := bytes.drop 4
    if len = 0 ∨ maxLen < len then none
    else if body.length < len then none
    else if (body.drop len).length < 4 then none
    else some (body.take len, Go.uint32 (body.drop len), (body.drop len).drop 4)

/-- The payload at the start of the bytes and what follows it, once its checksum is confirmed. -/
def readFrame (bytes : List UInt8) : Option (List UInt8 × List UInt8) :=
  match splitFrame maxLen bytes with
  | none => none
  | some (payload, sum, rest) =>
    if (checksum payload).toNat = sum then some (payload, rest) else none

/-- Decode at most `fuel` frames. -/
def replayAux : ℕ → List UInt8 → List R
  | 0, _ => []
  | fuel + 1, bytes =>
    match readFrame checksum maxLen bytes with
    | none => []
    | some (payload, rest) =>
      match decode payload with
      | none => []
      | some r => r :: replayAux fuel rest

/-- The decoded payloads up to the first frame that is not accepted. -/
def replay (bytes : List UInt8) : List R := replayAux checksum maxLen decode bytes.length bytes

/-! ## Reading one frame -/

@[simp] theorem length_frame (payload : List UInt8) :
    (frame checksum payload).length = payload.length + 8 := by
  simp only [frame, length_append, Go.length_putUint32]
  omega

variable {payload : List UInt8} (hlen : payload.length < 2 ^ 32)

include hlen

private theorem splitFrame_frame_append (rest : List UInt8) :
    splitFrame maxLen (frame checksum payload ++ rest) =
      if payload.length = 0 ∨ maxLen < payload.length then none
      else some (payload, (checksum payload).toNat, rest) := by
  have hsum : (checksum payload).toNat < 2 ^ 32 := (checksum payload).toNat_lt
  have hshape : frame checksum payload ++ rest = Go.putUint32 payload.length ++
      (payload ++ (Go.putUint32 (checksum payload).toNat ++ rest)) := by
    simp [frame]
  have hbody : (Go.putUint32 payload.length ++
      (payload ++ (Go.putUint32 (checksum payload).toNat ++ rest))).drop 4 =
      payload ++ (Go.putUint32 (checksum payload).toNat ++ rest) := rfl
  have htail : (Go.putUint32 (checksum payload).toNat ++ rest).drop 4 = rest := rfl
  simp only [splitFrame, hshape, hbody, Go.uint32_putUint32 hlen, length_append,
    Go.length_putUint32]
  rw [if_neg (by omega)]
  split
  · rfl
  · rw [if_neg (by omega), if_neg (by simp), take_left, drop_left, Go.uint32_putUint32 hsum, htail]

/-- A frame that fits the reader is read, whatever follows it. -/
theorem readFrame_frame (hpos : payload ≠ []) (hmax : payload.length ≤ maxLen) (rest : List UInt8) :
    readFrame checksum maxLen (frame checksum payload ++ rest) = some (payload, rest) := by
  have hne : ¬ (payload.length = 0 ∨ maxLen < payload.length) := by
    rw [length_eq_zero_iff]
    simpa [hpos] using hmax
  simp only [readFrame, splitFrame_frame_append checksum maxLen hlen, if_neg hne, if_true]

/-- A frame longer than the reader admits stops it. -/
theorem readFrame_frame_of_lt (hmax : maxLen < payload.length) (rest : List UInt8) :
    readFrame checksum maxLen (frame checksum payload ++ rest) = none := by
  simp [readFrame, splitFrame_frame_append checksum maxLen hlen, hmax]

variable {torn : List UInt8}

/-- A proper prefix of a frame is not read. -/
theorem readFrame_torn (htorn : torn <+: frame checksum payload)
    (hne : torn ≠ frame checksum payload) : readFrame checksum maxLen torn = none := by
  have hshort : torn.length < payload.length + 8 := by
    rw [← length_frame checksum payload]
    exact lt_of_le_of_ne htorn.length_le fun h => hne (htorn.eq_of_length h)
  have hsplit : splitFrame maxLen torn = none := by
    unfold splitFrame
    split
    · rfl
    · rename_i hfour
      obtain ⟨t, ht⟩ := htorn
      -- the whole length field is there, so the missing bytes are missed further on
      have hfield : Go.uint32 torn = payload.length := by
        have hwhole := Go.uint32_putUint32 hlen
          (payload ++ Go.putUint32 (checksum payload).toNat)
        rw [← append_assoc, ← frame, ← ht] at hwhole
        rcases torn with - | ⟨a, - | ⟨b, - | ⟨c, - | ⟨d, torn⟩⟩⟩⟩
        · simp at hfour
        · simp at hfour
        · simp at hfour
        · simp at hfour
        · simpa [Go.uint32] using hwhole
      simp only [hfield, length_drop]
      split_ifs <;> first | rfl | omega
  simp [readFrame, hsplit]

omit hlen

theorem readFrame_length_lt {bytes rest : List UInt8}
    (h : readFrame checksum maxLen bytes = some (payload, rest)) : rest.length < bytes.length := by
  simp only [readFrame] at h
  split at h
  · cases h
  · rename_i p sum r hsplit
    split at h
    · cases h
      simp only [splitFrame] at hsplit
      split_ifs at hsplit
      cases hsplit
      simp only [length_drop]
      omega
    · cases h

/-! ## Reading a log -/

private theorem replayAux_eq (fuel fuel' : ℕ) (bytes : List UInt8) (h : bytes.length ≤ fuel)
    (h' : bytes.length ≤ fuel') :
    replayAux checksum maxLen decode fuel bytes = replayAux checksum maxLen decode fuel' bytes := by
  induction fuel generalizing fuel' bytes with
  | zero =>
    obtain rfl : bytes = [] := length_eq_zero_iff.mp (by omega)
    cases fuel' <;> rfl
  | succ fuel ih =>
    cases fuel' with
    | zero =>
      obtain rfl : bytes = [] := length_eq_zero_iff.mp (by omega)
      rfl
    | succ fuel' =>
      simp only [replayAux]
      cases hread : readFrame checksum maxLen bytes with
      | none => rfl
      | some p =>
        obtain ⟨payload, rest⟩ := p
        have hlt := readFrame_length_lt checksum maxLen hread
        cases hdec : decode payload with
        | none => simp only [hdec]
        | some r =>
          simp only [hdec]
          rw [ih fuel' rest (by omega) (by omega)]

/-- Reading goes frame by frame. -/
theorem replay_eq (bytes : List UInt8) :
    replay checksum maxLen decode bytes =
      match readFrame checksum maxLen bytes with
      | none => []
      | some (payload, rest) =>
        match decode payload with
        | none => []
        | some r => r :: replay checksum maxLen decode rest := by
  cases bytes with
  | nil => rfl
  | cons b bytes =>
    simp only [replay, length_cons, replayAux]
    cases hread : readFrame checksum maxLen (b :: bytes) with
    | none => rfl
    | some p =>
      obtain ⟨payload, rest⟩ := p
      have hlt := readFrame_length_lt checksum maxLen hread
      simp only [length_cons] at hlt
      cases hdec : decode payload with
      | none => simp only [hdec]
      | some r =>
        simp only [hdec]
        rw [replayAux_eq checksum maxLen decode bytes.length rest.length rest (by omega) le_rfl]

/-- Nothing is read where no frame is accepted. -/
theorem replay_of_readFrame_none {bytes : List UInt8}
    (h : readFrame checksum maxLen bytes = none) : replay checksum maxLen decode bytes = [] := by
  rw [replay_eq, h]

@[simp] theorem replay_nil : replay checksum maxLen decode [] = [] := rfl

/-- A payload that the reader accepts and decodes. -/
structure Readable (payload : List UInt8) (r : R) : Prop where
  ne_nil : payload ≠ []
  le_maxLen : payload.length ≤ maxLen
  decodes : decode payload = some r

variable {checksum maxLen decode}

theorem replay_frame_append {r : R} (hmax : maxLen < 2 ^ 32)
    (h : Readable maxLen decode payload r) (rest : List UInt8) :
    replay checksum maxLen decode (frame checksum payload ++ rest)
      = r :: replay checksum maxLen decode rest := by
  have hread := readFrame_frame checksum maxLen (lt_of_le_of_lt h.le_maxLen hmax) h.ne_nil
    h.le_maxLen rest
  rw [replay_eq, hread]
  simp only [h.decodes]

variable {encode : α → List UInt8} {value : α → R} {xs : List α} {α : Type}

/-- Accepted frames are read and the rest is read after them. -/
theorem replay_append (hmax : maxLen < 2 ^ 32)
    (h : ∀ x ∈ xs, Readable maxLen decode (encode x) (value x)) (rest : List UInt8) :
    replay checksum maxLen decode (frames checksum (xs.map encode) ++ rest)
      = xs.map value ++ replay checksum maxLen decode rest := by
  induction xs with
  | nil => rfl
  | cons x xs ih =>
    have hx := h x mem_cons_self
    have hxs := ih (forall_mem_of_forall_mem_cons h)
    simp only [frames, map_cons, flatMap_cons, append_assoc] at hxs ⊢
    rw [replay_frame_append hmax hx, hxs, cons_append]

/-- A proper prefix of a frame reads as nothing. -/
theorem replay_torn (hlen : payload.length < 2 ^ 32) (htorn : torn <+: frame checksum payload)
    (hne : torn ≠ frame checksum payload) : replay checksum maxLen decode torn = [] :=
  replay_of_readFrame_none checksum maxLen decode (readFrame_torn checksum maxLen hlen htorn hne)

/-- From frames that are cut off anywhere, exactly those are read that are wholly there. -/
theorem replay_take
    (hmax : maxLen < 2 ^ 32) (h : ∀ x ∈ xs, Readable maxLen decode (encode x) (value x)) (n : ℕ) :
    ∃ k, (frames checksum ((xs.take k).map encode)).length ≤ n ∧
      (k < xs.length → n < (frames checksum ((xs.take (k + 1)).map encode)).length) ∧
      replay checksum maxLen decode ((frames checksum (xs.map encode)).take n) =
        (xs.take k).map value := by
  induction xs generalizing n with
  | nil => exact ⟨0, by simp [frames], by simp, by simp [frames]⟩
  | cons x xs ih =>
    have hx := h x mem_cons_self
    have hsplit (ys : List α) : frames checksum ((x :: ys).map encode) =
        frame checksum (encode x) ++ frames checksum (ys.map encode) := by
      simp [frames]
    by_cases hwhole : (frame checksum (encode x)).length ≤ n
    · obtain ⟨k, hle, hlt, hreplay⟩ :=
        ih (forall_mem_of_forall_mem_cons h) (n - (frame checksum (encode x)).length)
      refine ⟨k + 1, ?_, ?_, ?_⟩
      · rw [take_succ_cons, hsplit, length_append]
        omega
      · intro hk
        rw [take_succ_cons, hsplit, length_append]
        have hrest := hlt (by simpa using hk)
        omega
      · rw [hsplit, take_append, take_of_length_le hwhole, replay_frame_append hmax hx,
          hreplay, take_succ_cons, map_cons]
    · -- the cut is inside the first frame, which is then not read
      refine ⟨0, by simp [frames], ?_, ?_⟩
      · intro _
        rw [take_succ_cons, hsplit, length_append]
        omega
      · rw [hsplit, take_append_of_le_length (by omega)]
        refine replay_torn (lt_of_le_of_lt hx.le_maxLen hmax) ⟨_, take_append_drop _ _⟩ ?_
        intro heq
        have hlen := congrArg List.length heq
        rw [length_take] at hlen
        omega

/-- No more is read from a list of frames and a rest than the frames and what the rest gives. -/
theorem length_replay_append_le {payloads : List (List UInt8)}
    (hlen : ∀ p ∈ payloads, p ≠ [] ∧ p.length < 2 ^ 32) (rest : List UInt8) :
    (replay checksum maxLen decode (frames checksum payloads ++ rest)).length
      ≤ payloads.length + (replay checksum maxLen decode rest).length := by
  induction payloads with
  | nil => simp [frames]
  | cons p payloads ih =>
    obtain ⟨hne, hlt⟩ := hlen p mem_cons_self
    have hrest := ih (forall_mem_of_forall_mem_cons hlen)
    simp only [frames, flatMap_cons, append_assoc] at hrest ⊢
    by_cases hfit : p.length ≤ maxLen
    · rw [replay_eq, readFrame_frame checksum maxLen hlt hne hfit]
      cases hdec : decode p with
      | none => simp [hdec]
      | some r =>
        simp only [hdec, length_cons]
        omega
    · rw [replay_of_readFrame_none checksum maxLen decode
        (readFrame_frame_of_lt checksum maxLen hlt (by omega) _)]
      simp

/-- A list of frames that decode is read back whole exactly when every payload fits the reader. -/
theorem replay_frames_eq_iff
    (hmax : maxLen < 2 ^ 32)
    (hxs : ∀ x ∈ xs, encode x ≠ [] ∧ (encode x).length < 2 ^ 32 ∧
      decode (encode x) = some (value x)) {rest : List UInt8}
    (hrest : replay checksum maxLen decode rest = []) :
    replay checksum maxLen decode (frames checksum (xs.map encode) ++ rest) = xs.map value ↔
      ∀ x ∈ xs, (encode x).length ≤ maxLen := by
  constructor
  · induction xs with
    | nil => simp
    | cons x xs ih =>
      obtain ⟨hne, hlt, hdec⟩ := hxs x mem_cons_self
      intro h
      by_cases hfit : (encode x).length ≤ maxLen
      · simp only [frames, map_cons, flatMap_cons, append_assoc] at h
        rw [replay_frame_append hmax ⟨hne, hfit, hdec⟩] at h
        have htail := ih (forall_mem_of_forall_mem_cons hxs) (List.cons.inj h).2
        exact forall_mem_cons.mpr ⟨hfit, htail⟩
      · simp only [frames, map_cons, flatMap_cons, append_assoc] at h
        rw [replay_of_readFrame_none checksum maxLen decode
          (readFrame_frame_of_lt checksum maxLen hlt (by omega) _)] at h
        cases h
  · intro hfit
    have hread : ∀ x ∈ xs, Readable maxLen decode (encode x) (value x) := fun x hx =>
      ⟨(hxs x hx).1, hfit x hx, (hxs x hx).2.2⟩
    rw [replay_append hmax hread, hrest, append_nil]

end Frames

import Aflare.Watermark.Payload

/-!
# Watermarks in texts

The payload of a text is divided into three shards, and a fourth one has their parity. The text is
divided into segments, at sentences, at words or evenly, and each of the first four segments gets
one shard as invisible characters. Three shards are enough to find the payload.

Texts are valid UTF-8, and positions are counted in characters: the code converts to runes before it
counts, and where it searches the bytes of a text for a character, it finds the first such
character. -/

namespace Watermark

open Go List

/-! ## Shards -/

/-- The bytewise exclusive or of shards. -/
def parity (shards : List (List UInt8)) : List UInt8 :=
  shards.foldl (fun acc shard => List.zipWith (· ^^^ ·) acc shard) (List.replicate 8 0)

def buildShards (payload : List UInt8) : List (List UInt8) :=
  let size := (payload.length + 7) / 8 * 8
  let padded := payload ++ List.replicate (size - payload.length) 0
  let shards := (List.range (padded.length / 8)).map fun i => (padded.drop (i * 8)).take 8
  shards ++ [parity shards]

/-- Two elements of a list, in the order of two nested loops. -/
def pairs {α : Type*} : List α → List (α × α)
  | [] => []
  | x :: rest => rest.map (fun y => (x, y)) ++ pairs rest

/-- Three elements of a list, in the order of three nested loops. -/
def triplets {α : Type*} : List α → List (α × α × α)
  | [] => []
  | x :: rest => (pairs rest).map (fun yz => (x, yz)) ++ triplets rest

/-- Three different ones of four shards in every order, in the order of three nested loops. -/
def arrangements (all4 : List (List UInt8)) : List (List UInt8) :=
  (List.range 4).flatMap fun a => (List.range 4).flatMap fun b =>
    if b = a then []
    else (List.range 4).flatMap fun c =>
      if c = a ∨ c = b then [] else [all4.getD a [] ++ all4.getD b [] ++ all4.getD c []]

/-- The payloads that `tryRecoverFromShards` tries. -/
def candidates (shards : List (List UInt8)) : List (List UInt8) :=
  (triplets shards).flatMap fun triplet =>
    let three := [triplet.1, triplet.2.1, triplet.2.2]
    (arrangements (three ++ [parity three])).map fun payload =>
      payload.take (payloadSize + checksumSize)

/-- `tryRecoverFromShards` and `recoverPayload`. -/
def tryRecoverFromShards (stamp : Stamp) (shards : List (List UInt8)) : Option (List UInt8) :=
  if shards.length < 3 then none else (candidates shards).find? (verifyChecksum stamp)

/-! ## Extraction -/

/-- The text behind the first character with a property, and the text before it. -/
def cutRune (p : Char → Bool) : List Char → Option (List Char × List Char)
  | [] => none
  | r :: rest =>
    if p r then some ([], rest) else (cutRune p rest).map fun parts => (r :: parts.1, parts.2)

/-- The characters that end a shard. -/
def isZeroWidthEnd (r : Char) : Bool := r = zwEnd || r = zwEndLegacy

/-- The first shard of a text, and what follows it. -/
def nextShard (text : List Char) : Option (List UInt8 × List Char) :=
  match cutRune (fun r => r = zwStart) text with
  | none => none
  | some (_, rest) =>
    match cutRune isZeroWidthEnd rest with
    | none => none
    | some (bits, rest) => some (decodeBitsToBytes bits, rest)

/-- The loop of `extractAllShards`; every round shortens the text. -/
def extractShards : ℕ → List Char → List (List UInt8)
  | 0, _ => []
  | fuel + 1, text =>
    match nextShard text with
    | none => []
    | some (shard, rest) =>
      if shard.length = 8 then shard :: extractShards fuel rest else extractShards fuel rest

def extractAllShards (text : List Char) : List (List UInt8) := extractShards text.length text

def decodeLegacy (text : List Char) : Option Payload :=
  match nextShard text with
  | none => none
  | some (bytes, _) =>
    if bytes.length < payloadSize then none else parsePayload (bytes.take payloadSize)

def decodeText (stamp : Stamp) (text : List Char) : Option Payload :=
  let shards := extractAllShards text
  match if 3 ≤ shards.length then tryRecoverFromShards stamp shards else none with
  | some payload =>
    if verifyChecksum stamp payload then parsePayload (payload.take payloadSize)
    else decodeLegacy text
  | none => decodeLegacy text

/-! ## Segments -/

/-- `findSentenceBreaks`, from a position on. -/
def findSentenceBreaks : ℕ → List Char → List ℕ
  | i, r :: next :: rest =>
    if (r = '.' ∨ r = '!' ∨ r = '?' ∨ r = '\n') ∧ (next = ' ' ∨ next = '\n') then
      (i + 1) :: findSentenceBreaks (i + 1) (next :: rest)
    else findSentenceBreaks (i + 1) (next :: rest)
  | _, _ => []

/-- `findWordBreaks`, from a position on. -/
def findWordBreaks : ℕ → List Char → List ℕ
  | _, [] => []
  | i, r :: rest =>
    if r = ' ' ∧ 0 < i then (i + 1) :: findWordBreaks (i + 1) rest else findWordBreaks (i + 1) rest

/-- `pickEvenlySpaced`. It is called with three, and halves are exact in floating point. -/
def pickEvenlySpaced (indices : List ℕ) (k : ℕ) : List ℕ :=
  if indices.length ≤ k then indices
  else
    let step : ℚ := ((indices.length : ℚ) - 1) / ((k : ℚ) - 1)
    (List.range k).map fun i : ℕ =>
      let idx := ⌊(i : ℚ) * step⌋.toNat
      indices.getD (if indices.length ≤ idx then indices.length - 1 else idx) 0

/-- The loop of `splitAtIndices`. -/
def splitAtFrom (runes : List Char) : ℕ → List ℕ → List (List Char)
  | prev, [] => if prev < runes.length then [runes.drop prev] else []
  | prev, idx :: rest =>
    if prev < idx ∧ idx ≤ runes.length then
      (runes.drop prev).take (idx - prev) :: splitAtFrom runes idx rest
    else splitAtFrom runes prev rest

variable (runes : List Char)

def splitAtIndices (indices : List ℕ) : List (List Char) := splitAtFrom runes 0 indices

def splitEvenly (n : ℕ) : List (List Char) :=
  if runes.length < n then [runes]
  else
    let chunkSize := runes.length / n
    (List.range n).map fun i =>
      if i = n - 1 then runes.drop (i * chunkSize) else (runes.drop (i * chunkSize)).take chunkSize

def splitContentIntoSegments (content : List Char) (n : ℕ) : List (List Char) :=
  if n ≤ 1 then [content]
  else
    let sentenceBreaks := findSentenceBreaks 0 content
    if n - 1 ≤ sentenceBreaks.length then
      splitAtIndices content (pickEvenlySpaced sentenceBreaks (n - 1))
    else
      let wordBreaks := findWordBreaks 0 content
      if n - 1 ≤ wordBreaks.length then splitAtIndices content (pickEvenlySpaced wordBreaks (n - 1))
      else splitEvenly content n

/-! ## Embedding -/

def findInsertionPoint : ℕ :=
  if runes.length < 4 then runes.length / 2
  else
    match (runes.drop 2).findIdx? fun r => r = ' ' with
    | some i => i + 3
    | none => runes.length / 3

/-- A space: a bit 0. -/
def wsBit0 : Char := ' '

/-- A space without a break: a bit 1. -/
def wsBit1 : Char := '\u00A0'

/-- The loop of `encodeWhitespaceFingerprint`: the bits that are left go to the next spaces. -/
def encodeSpaces : List Bool → List Char → List Char
  | [], runes => runes
  | _, [] => []
  | bit :: more, r :: rest =>
    if r = ' ' then (if bit then wsBit1 else wsBit0) :: encodeSpaces more rest
    else r :: encodeSpaces (bit :: more) rest

/-- `encodeWhitespaceFingerprint`: two bits for the shard and two for the number of shards. -/
def encodeWhitespaceFingerprint (shardIndex : ℕ) : List Char :=
  encodeSpaces [shardIndex.testBit 1, shardIndex.testBit 0, true, true] runes

def embedShardInSegment (segment : List Char) (shard : List UInt8) (shardIndex : ℕ) : List Char :=
  let insertPos := min (findInsertionPoint segment) segment.length
  segment.take insertPos ++ encodeZeroWidth shard ++
    encodeWhitespaceFingerprint (segment.drop insertPos) shardIndex

/-- The loop of `EncodeTextWithSuffix`, from a segment on. -/
def embedShards : ℕ → List (List Char) → List (List UInt8) → List Char
  | _, [], _ => []
  | i, segment :: segments, shard :: shards =>
    embedShardInSegment segment shard i ++ embedShards (i + 1) segments shards
  | i, segment :: segments, [] => segment ++ embedShards (i + 1) segments []

def encodeTextWithSuffix (stamp : Stamp) (content : List Char) : List Char :=
  if content = [] then content
  else
    let payload := withChecksum stamp (buildPayload stamp (utf8 content))
    let segments := splitContentIntoSegments content 4
    if segments = [] then content ++ encodeZeroWidth (payload.take payloadSize)
    else embedShards 0 segments (buildShards payload)

/-! ## Finding the shards -/

/-- The characters that a watermark is made of. -/
def markers : List Char := [zwBit0, zwBit1, zwStart, zwEnd, zwEndLegacy]

variable {front : List Char}

theorem cutRune_append {p : Char → Bool} (h : ∀ r ∈ front, p r = false) (rest : List Char) :
    cutRune p (front ++ rest) = (cutRune p rest).map fun parts => (front ++ parts.1, parts.2) := by
  induction front with
  | nil => simp
  | cons r front ih =>
    have hrest := ih (forall_mem_of_forall_mem_cons h)
    simp [cutRune, h r mem_cons_self, hrest, Option.map_map, Function.comp_def]

theorem nextShard_append (h : zwStart ∉ front) (rest : List Char) :
    nextShard (front ++ rest) = nextShard rest := by
  have hfront : ∀ r ∈ front, decide (r = zwStart) = false := fun r hr =>
    decide_eq_false fun heq => h (heq ▸ hr)
  rw [nextShard, nextShard, cutRune_append hfront]
  cases cutRune (fun r => decide (r = zwStart)) rest with
  | none => rfl
  | some parts => rfl

theorem nextShard_encodeZeroWidth (data : List UInt8) (rest : List Char) :
    nextShard (encodeZeroWidth data ++ rest) = some (data, rest) := by
  have hstart : cutRune (fun r => decide (r = zwStart)) (encodeZeroWidth data ++ rest) =
      some ([], bits data ++ zwEnd :: rest) := by
    simp [encodeZeroWidth, cutRune]
  have hbits : ∀ r ∈ bits data, isZeroWidthEnd r = false := fun r hr => by
    rcases mem_bits hr with rfl | rfl
    · decide
    · decide
  have hend : cutRune isZeroWidthEnd (bits data ++ zwEnd :: rest) = some (bits data, rest) := by
    rw [cutRune_append hbits]
    simp [cutRune, isZeroWidthEnd]
  simp only [nextShard, hstart, hend, decodeBitsToBytes_bits]

theorem extractShards_append (h : zwStart ∉ front) (fuel : ℕ) (rest : List Char) :
    extractShards fuel (front ++ rest) = extractShards fuel rest := by
  cases fuel with
  | zero => rfl
  | succ fuel => rw [extractShards, extractShards, nextShard_append h]

/-- A space for a space without a break. -/
def plainSpace (r : Char) : Char := if r = wsBit1 then wsBit0 else r

/-- The fingerprint only changes the kind of spaces. -/
theorem map_plainSpace_encodeSpaces (bs : List Bool) (runes : List Char) :
    (encodeSpaces bs runes).map plainSpace = runes.map plainSpace := by
  induction runes generalizing bs with
  | nil => cases bs <;> rfl
  | cons c runes ih =>
    cases bs with
    | nil => rfl
    | cons bit more =>
      rw [encodeSpaces]
      split
      · next hspace =>
        subst hspace
        rw [map_cons, map_cons, ih]
        cases bit <;> rfl
      · rw [map_cons, map_cons, ih]

theorem zwStart_mem_of_encodeSpaces {bs : List Bool} {runes : List Char}
    (h : zwStart ∈ encodeSpaces bs runes) : zwStart ∈ runes := by
  have hmap : zwStart ∈ runes.map plainSpace :=
    map_plainSpace_encodeSpaces bs runes ▸ mem_map_of_mem h
  obtain ⟨c, hc, heq⟩ := mem_map.mp hmap
  rw [plainSpace] at heq
  split at heq
  · exact absurd heq (by decide)
  · exact heq ▸ hc

variable {segment : List Char}

theorem nextShard_embed (h : zwStart ∉ segment) (shard : List UInt8) (i : ℕ) (rest : List Char) :
    nextShard (embedShardInSegment segment shard i ++ rest) =
      some (shard, encodeWhitespaceFingerprint
        (segment.drop (min (findInsertionPoint segment) segment.length)) i ++ rest) := by
  have hfront : zwStart ∉ segment.take (min (findInsertionPoint segment) segment.length) :=
    fun hmem => h (mem_of_mem_take hmem)
  rw [embedShardInSegment, append_assoc, append_assoc, nextShard_append hfront,
    nextShard_encodeZeroWidth]

theorem extractShards_embed (h : zwStart ∉ segment) {shard : List UInt8}
    (hshard : shard.length = 8) (i fuel : ℕ) (rest : List Char) :
    extractShards (fuel + 1) (embedShardInSegment segment shard i ++ rest) =
      shard :: extractShards fuel rest := by
  have hback : zwStart ∉ encodeWhitespaceFingerprint
      (segment.drop (min (findInsertionPoint segment) segment.length)) i := fun hmem =>
    h (mem_of_mem_drop (zwStart_mem_of_encodeSpaces hmem))
  rw [extractShards, nextShard_embed h]
  dsimp only
  rw [if_pos hshard, extractShards_append hback]

variable {shards : List (List UInt8)}

variable {segments : List (List Char)}

/-- The shards of the segments that have one are found. -/
theorem extractShards_embedShards (hsegments : ∀ segment ∈ segments, zwStart ∉ segment)
    (hshards : ∀ shard ∈ shards, shard.length = 8) (i : ℕ) {fuel : ℕ}
    (hfuel : segments.length < fuel) :
    extractShards fuel (embedShards i segments shards) = shards.take segments.length := by
  induction segments generalizing i shards fuel with
  | nil =>
    obtain ⟨fuel, rfl⟩ := Nat.exists_eq_succ_of_ne_zero hfuel.ne'
    rfl
  | cons segment segments ih =>
    have hrest : ∀ segment ∈ segments, zwStart ∉ segment := fun s hs =>
      hsegments s (mem_cons_of_mem _ hs)
    rw [length_cons] at hfuel
    cases shards with
    | nil =>
      rw [embedShards, extractShards_append (hsegments segment mem_cons_self),
        ih hrest (by simp) _ (by omega)]
      simp
    | cons shard shards =>
      obtain ⟨fuel, rfl⟩ := Nat.exists_eq_succ_of_ne_zero (show fuel ≠ 0 by omega)
      rw [embedShards, extractShards_embed (hsegments segment mem_cons_self)
        (hshards shard mem_cons_self), ih hrest (forall_mem_of_forall_mem_cons hshards) _
        (by omega)]
      rfl

/-! ## The segments -/

section Segments

variable {runes : List Char} {prev : ℕ} {indices : List ℕ}

theorem flatten_splitAtFrom : (splitAtFrom runes prev indices).flatten = runes.drop prev := by
  induction indices generalizing prev with
  | nil =>
    rw [splitAtFrom]
    split
    · simp
    · next hend => rw [drop_eq_nil_of_le (Nat.le_of_not_lt hend), flatten_nil]
  | cons idx indices ih =>
    rw [splitAtFrom]
    split
    · next hidx =>
      have hrest : runes.drop idx = (runes.drop prev).drop (idx - prev) := by
        rw [drop_drop, Nat.add_sub_cancel' hidx.1.le]
      rw [flatten_cons, ih, hrest, take_append_drop]
    · exact ih

theorem length_splitAtFrom_le : (splitAtFrom runes prev indices).length ≤ indices.length + 1 := by
  induction indices generalizing prev with
  | nil =>
    rw [splitAtFrom]
    split
    · rfl
    · simp
  | cons idx indices ih =>
    rw [splitAtFrom, length_cons]
    split
    · rw [length_cons]
      exact Nat.succ_le_succ ih
    · exact ih.trans (Nat.le_succ _)

theorem le_length_splitAtFrom (hpairwise : indices.Pairwise (· < ·))
    (hbounds : ∀ idx ∈ indices, prev < idx ∧ idx ≤ runes.length) :
    indices.length ≤ (splitAtFrom runes prev indices).length := by
  induction indices generalizing prev with
  | nil => simp
  | cons idx indices ih =>
    obtain ⟨hlt, hpairwise⟩ := pairwise_cons.mp hpairwise
    rw [splitAtFrom, if_pos (hbounds idx mem_cons_self), length_cons, length_cons]
    refine Nat.succ_le_succ (ih hpairwise fun idx' hidx' => ⟨hlt idx' hidx', ?_⟩)
    exact (hbounds idx' (mem_cons_of_mem _ hidx')).2

theorem flatten_splitEvenly : (splitEvenly runes 4).flatten = runes := by
  have hrange : range 4 = [0, 1, 2, 3] := rfl
  rw [splitEvenly]
  split
  · simp
  · generalize runes.length / 4 = size
    have hjoin (n : ℕ) : (runes.drop n).take size ++ runes.drop (n + size) = runes.drop n := by
      rw [← drop_drop, take_append_drop]
    have hsecond := hjoin size
    have hthird := hjoin (2 * size)
    rw [← two_mul] at hsecond
    rw [← Nat.succ_mul] at hthird
    simp [hrange, hsecond, hthird]

theorem findSentenceBreaks_sublist (i : ℕ) (runes : List Char) :
    (findSentenceBreaks i runes).Sublist (range' (i + 1) (runes.length - 1)) := by
  induction runes generalizing i with
  | nil => simp [findSentenceBreaks]
  | cons r runes ih =>
    cases runes with
    | nil => simp [findSentenceBreaks]
    | cons next runes =>
      have hrest := ih (i + 1)
      simp only [length_cons, Nat.add_sub_cancel] at hrest ⊢
      rw [findSentenceBreaks, range'_succ]
      split
      · exact hrest.cons_cons _
      · exact hrest.cons _

theorem findWordBreaks_sublist (i : ℕ) (runes : List Char) :
    (findWordBreaks i runes).Sublist (range' (i + 1) runes.length) := by
  induction runes generalizing i with
  | nil => simp [findWordBreaks]
  | cons r runes ih =>
    rw [findWordBreaks, length_cons, range'_succ]
    split
    · exact (ih (i + 1)).cons_cons _
    · exact (ih (i + 1)).cons _

theorem findWordBreaks_zero_sublist (runes : List Char) :
    (findWordBreaks 0 runes).Sublist (range' 2 (runes.length - 1)) := by
  cases runes with
  | nil => simp [findWordBreaks]
  | cons r runes =>
    rw [findWordBreaks, if_neg (by simp)]
    exact findWordBreaks_sublist 1 runes

/-- The positions that are picked: the first, the middle and the last. -/
theorem pickEvenlySpaced_three (h : 3 < indices.length) :
    pickEvenlySpaced indices 3 =
      [indices.getD 0 0, indices.getD ((indices.length - 1) / 2) 0,
        indices.getD (indices.length - 1) 0] := by
  have hfloor : ∀ i : ℕ, ⌊(i : ℚ) * (((indices.length : ℚ) - 1) / (((3 : ℕ) : ℚ) - 1))⌋.toNat =
      i * (indices.length - 1) / 2 := fun i => by
    have hcast : (i : ℚ) * (((indices.length : ℚ) - 1) / (((3 : ℕ) : ℚ) - 1)) =
        ((i * (indices.length - 1) : ℕ) : ℚ) / ((2 : ℕ) : ℚ) := by
      rw [Nat.cast_mul, Nat.cast_sub (by omega)]
      push_cast
      ring
    rw [hcast, Int.floor_toNat, Nat.floor_div_eq_div]
  have hrange : range 3 = [0, 1, 2] := rfl
  rw [pickEvenlySpaced, if_neg (by omega)]
  simp only [hfloor, hrange, map_cons, map_nil]
  rw [if_neg (by omega), if_neg (by omega), if_neg (by omega), Nat.zero_mul, Nat.zero_div,
    Nat.one_mul, Nat.mul_div_cancel_left _ (by decide)]

theorem getD_lt_getD (hpairwise : indices.Pairwise (· < ·)) {i j : ℕ} (hij : i < j)
    (hj : j < indices.length) : indices.getD i 0 < indices.getD j 0 := by
  rw [getD_eq_getElem _ _ (hij.trans hj), getD_eq_getElem _ _ hj]
  exact pairwise_iff_getElem.mp hpairwise i j _ _ hij

/-- What is picked from increasing positions is increasing. -/
theorem pickEvenlySpaced_spec (hpairwise : indices.Pairwise (· < ·)) (h : 3 ≤ indices.length) :
    (pickEvenlySpaced indices 3).Pairwise (· < ·) ∧ (pickEvenlySpaced indices 3).length = 3 ∧
      ∀ idx ∈ pickEvenlySpaced indices 3, idx ∈ indices := by
  by_cases hthree : indices.length ≤ 3
  · rw [pickEvenlySpaced, if_pos hthree]
    exact ⟨hpairwise, le_antisymm hthree h, fun idx => id⟩
  · rw [pickEvenlySpaced_three (Nat.lt_of_not_le hthree)]
    have hmid :=
      getD_lt_getD hpairwise (i := 0) (j := (indices.length - 1) / 2) (by omega) (by omega)
    have hlast := getD_lt_getD hpairwise (i := (indices.length - 1) / 2) (j := indices.length - 1)
      (by omega) (by omega)
    have hmem : ∀ i < indices.length, indices.getD i 0 ∈ indices := fun i hi => by
      rw [getD_eq_getElem _ _ hi]
      exact getElem_mem hi
    refine ⟨?_, rfl, ?_⟩
    · simp only [pairwise_cons, mem_cons, not_mem_nil, or_false, forall_eq_or_imp,
        forall_eq, List.Pairwise.nil, and_true, false_imp_iff, implies_true]
      exact ⟨⟨hmid, hmid.trans hlast⟩, hlast⟩
    · simp only [mem_cons, not_mem_nil, or_false, forall_eq_or_imp, forall_eq]
      exact ⟨hmem _ (by omega), hmem _ (by omega), hmem _ (by omega)⟩

variable (content : List Char)

variable {content} in
theorem pickEvenlySpaced_of_sublist {start : ℕ}
    (h : indices.Sublist (range' (start + 1) (content.length - 1))) (hstart : start ≤ 1)
    (henough : 3 ≤ indices.length) :
    (pickEvenlySpaced indices 3).length = 3 ∧ (pickEvenlySpaced indices 3).Pairwise (· < ·) ∧
      (∀ idx ∈ pickEvenlySpaced indices 3, 0 < idx ∧ idx ≤ content.length) ∧
        4 ≤ content.length := by
  have hlength := h.length_le
  rw [length_range'] at hlength
  obtain ⟨hpairwise, hthree, hmem⟩ :=
    pickEvenlySpaced_spec (.sublist h (pairwise_lt_range' ..)) henough
  refine ⟨hthree, hpairwise, fun idx hidx => ?_, by omega⟩
  have hidx := mem_range'_1.mp (h.subset (hmem idx hidx))
  omega

theorem splitContent_cases :
    (∃ indices, splitContentIntoSegments content 4 = splitAtIndices content indices ∧
        indices.length = 3 ∧ indices.Pairwise (· < ·) ∧
        (∀ idx ∈ indices, 0 < idx ∧ idx ≤ content.length) ∧ 4 ≤ content.length) ∨
      splitContentIntoSegments content 4 = splitEvenly content 4 := by
  rw [splitContentIntoSegments, if_neg (by decide)]
  dsimp only
  split
  · next henough =>
    exact .inl ⟨_, rfl, pickEvenlySpaced_of_sublist (findSentenceBreaks_sublist 0 content)
      (Nat.zero_le 1) henough⟩
  · split
    · next henough =>
      exact .inl ⟨_, rfl, pickEvenlySpaced_of_sublist (findWordBreaks_zero_sublist content) le_rfl
        henough⟩
    · exact .inr rfl

/-- The segments are the text. -/
theorem flatten_segments : (splitContentIntoSegments content 4).flatten = content := by
  obtain ⟨indices, hsplit, -⟩ | hsplit := splitContent_cases content
  · rw [hsplit]
    exact flatten_splitAtFrom
  · rw [hsplit]
    exact flatten_splitEvenly

theorem length_segments_le : (splitContentIntoSegments content 4).length ≤ 4 := by
  obtain ⟨indices, hsplit, hlength, -⟩ | hsplit := splitContent_cases content
  · have hle : (splitAtIndices content indices).length ≤ indices.length + 1 := length_splitAtFrom_le
    rw [hsplit]
    omega
  · rw [hsplit, splitEvenly]
    split
    · simp
    · simp

theorem three_le_length_segments (h : 4 ≤ content.length) :
    3 ≤ (splitContentIntoSegments content 4).length := by
  obtain ⟨indices, hsplit, hlength, hpairwise, hbounds, -⟩ | hsplit := splitContent_cases content
  · rw [hsplit, ← hlength]
    exact le_length_splitAtFrom hpairwise hbounds
  · rw [hsplit, splitEvenly, if_neg (by omega)]
    simp

theorem segments_of_lt (h : content.length < 4) :
    splitContentIntoSegments content 4 = [content] := by
  obtain ⟨indices, -, -, -, -, hlong⟩ | hsplit := splitContent_cases content
  · omega
  · rw [hsplit, splitEvenly, if_pos h]

end Segments

/-! ## Round trip -/

theorem length_embedShards (h : segments.length ≤ shards.length)
    (i : ℕ) : 2 * segments.length ≤ (embedShards i segments shards).length := by
  induction segments generalizing i shards with
  | nil => simp
  | cons segment segments ih =>
    cases shards with
    | nil => simp at h
    | cons shard shards =>
      have hrest := ih (Nat.le_of_succ_le_succ h) (i + 1)
      simp only [embedShards, embedShardInSegment, encodeZeroWidth, length_append, length_cons,
        length_nil] at hrest ⊢
      omega

theorem length_parity (h : ∀ shard ∈ shards, shard.length = 8) : (parity shards).length = 8 := by
  -- the lengths of the accumulator
  suffices hfold : ∀ acc : List UInt8, acc.length = 8 →
      (shards.foldl (fun acc shard => zipWith (· ^^^ ·) acc shard) acc).length = 8 from
    hfold _ length_replicate
  induction shards with
  | nil => exact fun acc hacc => hacc
  | cons shard shards ih =>
    intro acc hacc
    refine ih (forall_mem_of_forall_mem_cons h) _ ?_
    rw [length_zipWith, hacc, h shard mem_cons_self, min_self]

/-- Three shards of data, each of eight bytes, and the parity. -/
theorem buildShards_eq {payload : List UInt8} (h : payload.length = 23) :
    ∃ a b c, buildShards payload = [a, b, c] ++ [parity [a, b, c]] ∧
      (∀ shard ∈ buildShards payload, shard.length = 8) ∧ (a ++ b ++ c).take 23 = payload := by
  obtain ⟨padded, hpadded⟩ : ∃ padded, padded = payload ++ [0] := ⟨_, rfl⟩
  have hlength : padded.length = 24 := by simp [hpadded, h]
  have hshards : buildShards payload =
      [padded.take 8, (padded.drop 8).take 8, (padded.drop 16).take 8] ++
        [parity [padded.take 8, (padded.drop 8).take 8, (padded.drop 16).take 8]] := by
    have hrange : range 3 = [0, 1, 2] := rfl
    simp [buildShards, h, ← hpadded, hlength, hrange]
  have hdata : ∀ shard ∈ [padded.take 8, (padded.drop 8).take 8, (padded.drop 16).take 8],
      shard.length = 8 := by
    simp [hlength]
  refine ⟨_, _, _, hshards, ?_, ?_⟩
  · rw [hshards]
    exact forall_mem_append.mpr ⟨hdata, forall_mem_singleton.mpr (length_parity hdata)⟩
  · have hjoin : padded.take 8 ++ (padded.drop 8).take 8 ++ (padded.drop 16).take 8 = padded := by
      rw [← take_add, ← take_add, take_of_length_le hlength.le]
    rw [hjoin, hpadded]
    exact take_left' h

theorem tryRecoverFromShards_cons {stamp : Stamp} {a b c : List UInt8} {more : List (List UInt8)}
    (h : verifyChecksum stamp ((a ++ b ++ c).take 23) = true) :
    tryRecoverFromShards stamp (a :: b :: c :: more) = some ((a ++ b ++ c).take 23) := by
  obtain ⟨rest, hfirst⟩ : ∃ rest, candidates (a :: b :: c :: more) =
      (a ++ b ++ c).take 23 :: rest :=
    ⟨_, rfl⟩
  rw [tryRecoverFromShards, if_neg (by simp), hfirst, find?_cons_of_pos h]

variable {stamp : Stamp} {content : List Char}

theorem zwStart_notMem_segments (h : ∀ r ∈ content, r ∉ markers) :
    ∀ segment ∈ splitContentIntoSegments content 4, zwStart ∉ segment := by
  intro segment hsegment hmem
  have hcontent := mem_flatten.mpr ⟨segment, hsegment, hmem⟩
  rw [flatten_segments] at hcontent
  exact h zwStart hcontent (by simp [markers])

theorem segments_ne_nil (hne : content ≠ []) : splitContentIntoSegments content 4 ≠ [] := by
  intro hnil
  have hjoin := flatten_segments content
  rw [hnil] at hjoin
  exact hne hjoin.symm

/-- The shards of a watermarked text are found. -/
theorem extractAllShards_encode (stamp : Stamp) (hne : content ≠ [])
    (h : ∀ r ∈ content, r ∉ markers) :
    extractAllShards (encodeTextWithSuffix stamp content) =
      (buildShards (withChecksum stamp (buildPayload stamp (utf8 content)))).take
        (splitContentIntoSegments content 4).length := by
  have hpayload : (withChecksum stamp (buildPayload stamp (utf8 content))).length = 23 := by
    simp [payloadSize]
  obtain ⟨a, b, c, hshards, hlengths, -⟩ := buildShards_eq hpayload
  have hcount : (splitContentIntoSegments content 4).length ≤
      (buildShards (withChecksum stamp (buildPayload stamp (utf8 content)))).length := by
    rw [hshards]
    exact length_segments_le content
  have hpos := length_pos_iff.mpr (segments_ne_nil hne)
  have hfuel := length_embedShards hcount 0
  rw [extractAllShards, encodeTextWithSuffix, if_neg hne]
  dsimp only
  rw [if_neg (segments_ne_nil hne)]
  exact extractShards_embedShards (zwStart_notMem_segments h) hlengths 0 (by omega)

theorem decodeText_of_shards {text : List Char} {a b c : List UInt8} {more : List (List UInt8)}
    (hshards : extractAllShards text = a :: b :: c :: more)
    (h : verifyChecksum stamp ((a ++ b ++ c).take 23) = true) :
    decodeText stamp text = parsePayload (((a ++ b ++ c).take 23).take payloadSize) := by
  rw [decodeText, hshards, if_pos (by simp), tryRecoverFromShards_cons h]
  exact if_pos h

theorem decodeText_of_singleton {text rest : List Char} {shard : List UInt8}
    (hshards : extractAllShards text = [shard]) (hnext : nextShard text = some (shard, rest))
    (hlength : shard.length < payloadSize) : decodeText stamp text = none := by
  rw [decodeText, hshards, if_neg (by simp)]
  dsimp only
  rw [decodeLegacy, hnext]
  exact if_pos hlength

/-- The watermark of a text is read back exactly if the text has four characters. -/
theorem decode_text_iff (stamp : Stamp) (content : List Char) (hne : content ≠ [])
    (h : ∀ r ∈ content, r ∉ markers) :
    decodeText stamp (encodeTextWithSuffix stamp content) = some (payloadOf stamp (utf8 content)) ↔
      4 ≤ content.length := by
  have hpayload : (withChecksum stamp (buildPayload stamp (utf8 content))).length = 23 := by
    simp [payloadSize]
  obtain ⟨a, b, c, hshards, hlengths, hjoin⟩ := buildShards_eq hpayload
  have hextract := extractAllShards_encode stamp hne h
  rw [hshards] at hextract
  constructor
  · intro hdecode
    by_contra hshort
    have hsegments := segments_of_lt content (Nat.lt_of_not_le hshort)
    have hstart : zwStart ∉ content := fun hmem => h zwStart hmem (by simp [markers])
    have hencode : encodeTextWithSuffix stamp content = embedShardInSegment content a 0 ++ [] := by
      rw [encodeTextWithSuffix, if_neg hne]
      dsimp only
      rw [if_neg (segments_ne_nil hne), hsegments, hshards]
      rfl
    have hnext := nextShard_embed hstart a 0 []
    rw [← hencode] at hnext
    rw [hsegments] at hextract
    have hshort : a.length < payloadSize := by
      rw [hlengths a (by simp [hshards]), payloadSize]
      decide
    rw [decodeText_of_singleton hextract hnext hshort] at hdecode
    cases hdecode
  · intro hlong
    obtain ⟨more, hmore⟩ : ∃ more, (splitContentIntoSegments content 4).length = 3 + more :=
      Nat.exists_eq_add_of_le (three_le_length_segments content hlong)
    have hshape : ([a, b, c] ++ [parity [a, b, c]]).take (3 + more) =
        a :: b :: c :: [parity [a, b, c]].take more := by
      rw [Nat.add_comm]
      rfl
    have hverify : verifyChecksum stamp ((a ++ b ++ c).take 23) = true := by
      rw [hjoin]
      refine verifyChecksum_withChecksum stamp fun hnil => ?_
      have hlength := length_buildPayload stamp (utf8 content)
      rw [hnil] at hlength
      exact absurd hlength (by decide)
    rw [hmore, hshape] at hextract
    rw [decodeText_of_shards hextract hverify, hjoin]
    have htake : (withChecksum stamp (buildPayload stamp (utf8 content))).take payloadSize =
        buildPayload stamp (utf8 content) :=
      take_left' (length_buildPayload stamp (utf8 content))
    rw [htake, parsePayload_buildPayload]

theorem decode_text_hello :
    decodeText plainStamp (encodeTextWithSuffix plainStamp ['h', 'e', 'l', 'l', 'o']) =
      some (payloadOf plainStamp (utf8 ['h', 'e', 'l', 'l', 'o'])) :=
  (decode_text_iff plainStamp ['h', 'e', 'l', 'l', 'o'] (by simp)
    (by simp [markers, zwBit0, zwBit1, zwStart, zwEnd, zwEndLegacy])).mpr (by decide)

/-- Two characters get one shard, and nothing is read back. -/
theorem not_decode_text :
    encodeTextWithSuffix plainStamp ['o', 'k'] ≠ ['o', 'k'] ∧
      decodeText plainStamp (encodeTextWithSuffix plainStamp ['o', 'k']) = none := by
  decide

/-! ## Deleting the watermark -/

/-- A text without the characters of watermarks, and with plain spaces. -/
def stripWatermark (text : List Char) : List Char :=
  (text.filter fun r => r ∉ markers).map plainSpace

theorem stripWatermark_append (text more : List Char) :
    stripWatermark (text ++ more) = stripWatermark text ++ stripWatermark more := by
  simp [stripWatermark]

theorem stripWatermark_encodeZeroWidth (data : List UInt8) :
    stripWatermark (encodeZeroWidth data) = [] := by
  have hmarks : ∀ r ∈ encodeZeroWidth data, r ∈ markers := by
    refine forall_mem_cons.mpr ⟨by simp [markers], forall_mem_append.mpr ⟨fun r hr => ?_, ?_⟩⟩
    · rcases mem_bits hr with rfl | rfl <;> simp [markers]
    · simp [markers]
  simpa [stripWatermark] using hmarks

theorem stripWatermark_encodeSpaces (bs : List Bool) (runes : List Char) :
    stripWatermark (encodeSpaces bs runes) = stripWatermark runes := by
  -- no space is a character of watermarks, so the spaces may be made plain first
  have hplain (text : List Char) :
      stripWatermark text = (text.map plainSpace).filter fun r => r ∉ markers := by
    rw [stripWatermark, filter_map]
    refine congrArg _ (filter_congr fun r _ => ?_)
    rw [Function.comp_apply, plainSpace]
    split
    · next hspace =>
      subst hspace
      decide
    · rfl
  rw [hplain, hplain, map_plainSpace_encodeSpaces]

theorem stripWatermark_embed (segment : List Char) (shard : List UInt8) (i : ℕ) :
    stripWatermark (embedShardInSegment segment shard i) = stripWatermark segment := by
  rw [embedShardInSegment, encodeWhitespaceFingerprint, stripWatermark_append,
    stripWatermark_append, stripWatermark_encodeZeroWidth, stripWatermark_encodeSpaces, append_nil,
    ← stripWatermark_append, take_append_drop]

theorem stripWatermark_embedShards (i : ℕ) (segments : List (List Char))
    (shards : List (List UInt8)) :
    stripWatermark (embedShards i segments shards) = stripWatermark segments.flatten := by
  induction segments generalizing i shards with
  | nil => rfl
  | cons segment segments ih =>
    cases shards with
    | nil => rw [embedShards, flatten_cons, stripWatermark_append, stripWatermark_append, ih]
    | cons shard shards =>
      rw [embedShards, flatten_cons, stripWatermark_append, stripWatermark_append, ih,
        stripWatermark_embed]

/-- A watermarked text without the watermark is the text. -/
theorem strip_encodeText (stamp : Stamp) (content : List Char)
    (h : ∀ r ∈ content, r ∉ markers ∧ r ≠ wsBit1) :
    stripWatermark (encodeTextWithSuffix stamp content) = content := by
  have hcontent : stripWatermark content = content := by
    rw [stripWatermark, filter_eq_self.mpr fun r hr => decide_eq_true (h r hr).1]
    exact (map_congr_left fun r hr => if_neg (h r hr).2).trans (map_id content)
  rw [encodeTextWithSuffix]
  split
  · exact hcontent
  · dsimp only
    split
    · rw [stripWatermark_append, stripWatermark_encodeZeroWidth, append_nil, hcontent]
    · rw [stripWatermark_embedShards, flatten_segments, hcontent]

theorem strip_encodeText_words :
    stripWatermark (encodeTextWithSuffix plainStamp ['a', ' ', 'b']) = ['a', ' ', 'b'] :=
  strip_encodeText plainStamp ['a', ' ', 'b']
    (by simp [markers, zwBit0, zwBit1, zwStart, zwEnd, zwEndLegacy, wsBit1])

end Watermark

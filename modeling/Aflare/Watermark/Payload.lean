import Aflare.Go.Strings

/-!
# Watermark payloads

A payload names the content by six bytes of its SHA-256, the time and the deployment. Two bytes of a
checksum follow it, and its bits are written as zero-width characters between two markers.

SHA-256, the clock and the deployment are given by a `Stamp`. Texts are lists of characters here, as
Go has them after a conversion to runes. -/

namespace Watermark

open Go List

/-! ## Big-endian words -/

/-- `binary.BigEndian.PutUint64` and its like: the lowest `width` bytes of a number. -/
def putBigEndian : ℕ → ℕ → List UInt8
  | 0, _ => []
  | width + 1, n => putBigEndian width (n / 256) ++ [UInt8.ofNat n]

/-- `binary.BigEndian.Uint64` and its like. -/
def bigEndian (bytes : List UInt8) : ℕ := bytes.foldl (fun acc b => acc * 256 + b.toNat) 0

@[simp] theorem length_putBigEndian (width n : ℕ) : (putBigEndian width n).length = width := by
  induction width generalizing n with
  | zero => rfl
  | succ width ih => simp [putBigEndian, ih]

theorem bigEndian_putBigEndian {width n : ℕ} (h : n < 256 ^ width) :
    bigEndian (putBigEndian width n) = n := by
  induction width generalizing n with
  | zero =>
    obtain rfl : n = 0 := by simpa using h
    rfl
  | succ width ih =>
    have hhigh : n / 256 < 256 ^ width := Nat.div_lt_of_lt_mul (by rwa [pow_succ'] at h)
    have hfold := ih hhigh
    simp only [bigEndian] at hfold
    simp only [bigEndian, putBigEndian, foldl_append, foldl_cons, foldl_nil, hfold,
      UInt8.toNat_ofNat']
    omega

/-! ## Payloads -/

/-- What a watermark is made of besides the content: SHA-256, the seconds since 1970, and the
deployment. -/
structure Stamp where
  sha256 : Str → List UInt8
  length_sha256 : ∀ data, (sha256 data).length = 32
  unix : ℤ
  inInt64_unix : InInt64 unix
  deployID : ℕ
  deployID_lt : deployID < 2 ^ 16

theorem inInt64_zero : InInt64 0 := by decide

/-- A stamp to evaluate the model with: the length of a text in place of its hash. -/
def plainStamp : Stamp where
  sha256 data := List.replicate 32 (UInt8.ofNat data.length)
  length_sha256 _ := length_replicate
  unix := 0
  inInt64_unix := inInt64_zero
  deployID := 0
  deployID_lt := Nat.two_pow_pos 16

structure Payload where
  version : UInt8
  timestamp : ℤ
  hash : List UInt8
  deployID : ℕ
  deriving DecidableEq

def magicBytes : Str := str "AFLR"

def wmVersionV1 : UInt8 := 1

def wmVersion : UInt8 := 2

def payloadSize : ℕ := 21

def checksumSize : ℕ := 2

variable (stamp : Stamp)

def buildPayload (content : Str) : List UInt8 :=
  magicBytes ++ [wmVersion] ++ putBigEndian 8 (stamp.unix % 2 ^ 64).toNat ++
    (stamp.sha256 content).take 6 ++ putBigEndian 2 stamp.deployID

def parsePayload (payload : List UInt8) : Option Payload :=
  if payload.length < payloadSize then none
  else if payload.take 4 ≠ magicBytes then none
  else
    let version := payload.getD 4 0
    let ts := (bigEndian ((payload.drop 5).take 8) : ℤ).bmod (2 ^ 64)
    if version = wmVersionV1 then some ⟨version, ts, (payload.drop 13).take 8, 0⟩
    else if version = wmVersion then
      some ⟨version, ts, (payload.drop 13).take 6, bigEndian ((payload.drop 19).take 2)⟩
    else none

/-- The payload of a content, as it is read. -/
def payloadOf (content : Str) : Payload :=
  ⟨wmVersion, stamp.unix, (stamp.sha256 content).take 6, stamp.deployID⟩

variable (content : Str)

@[simp] theorem length_buildPayload : (buildPayload stamp content).length = payloadSize := by
  simp [buildPayload, stamp.length_sha256, magicBytes, str, String.utf8EncodeChar, payloadSize]

/-- A payload is read back as it was built. -/
theorem parsePayload_buildPayload :
    parsePayload (buildPayload stamp content) = some (payloadOf stamp content) := by
  have hhash : ((stamp.sha256 content).take 6).length = 6 := by simp [stamp.length_sha256]
  have hmagic : magicBytes.length = 4 := by decide
  have htime : bigEndian (putBigEndian 8 (stamp.unix % 2 ^ 64).toNat) =
      (stamp.unix % 2 ^ 64).toNat :=
    bigEndian_putBigEndian (by omega)
  have hdeploy : bigEndian (putBigEndian 2 stamp.deployID) = stamp.deployID :=
    bigEndian_putBigEndian (lt_of_lt_of_eq stamp.deployID_lt (by norm_num))
  have hmagic' : (buildPayload stamp content).take 4 = magicBytes := by
    simp [buildPayload, hmagic]
  have hversion : (buildPayload stamp content).getD 4 0 = wmVersion := by
    simp [buildPayload, hmagic]
  have htime' : ((buildPayload stamp content).drop 5).take 8 =
      putBigEndian 8 (stamp.unix % 2 ^ 64).toNat := by
    simp [buildPayload, drop_append, take_append, hmagic, hhash]
  have hhash' : ((buildPayload stamp content).drop 13).take 6 = (stamp.sha256 content).take 6 := by
    simp [buildPayload, drop_append, take_append, hmagic, hhash]
  have hdeploy' : ((buildPayload stamp content).drop 19).take 2 =
      putBigEndian 2 stamp.deployID := by
    rw [buildPayload, drop_left' (by simp [hmagic, hhash]), take_of_length_le (by simp)]
  have hunix : (((stamp.unix % 2 ^ 64).toNat : ℕ) : ℤ).bmod (2 ^ 64) = stamp.unix := by
    have hbounds := stamp.inInt64_unix
    simp only [InInt64] at hbounds
    rw [Int.toNat_of_nonneg (Int.emod_nonneg _ (by norm_num))]
    simp only [Int.bmod]
    omega
  rw [parsePayload, if_neg (by simp), if_neg (by simp [hmagic'])]
  simp only [hversion, htime', hhash', hdeploy', htime, hdeploy, hunix]
  rw [if_neg (by decide), if_pos trivial]
  rfl

/-! ## Checksums -/

def checksum16 (data : List UInt8) : ℕ :=
  ((stamp.sha256 data).getD 0 0).toNat * 256 + ((stamp.sha256 data).getD 1 0).toNat

/-- A payload with the two bytes of its checksum. -/
def withChecksum (payload : List UInt8) : List UInt8 :=
  payload ++ [UInt8.ofNat (checksum16 stamp payload / 256),
    UInt8.ofNat (checksum16 stamp payload % 256)]

def verifyChecksum (payload : List UInt8) : Bool :=
  if payload.length < checksumSize + 1 then false
  else
    let data := payload.take (payload.length - checksumSize)
    checksum16 stamp data =
      (payload.getD (payload.length - 2) 0).toNat * 256 +
        (payload.getD (payload.length - 1) 0).toNat

variable (data : List UInt8)

theorem checksum16_lt : checksum16 stamp data < 65536 := by
  have hhigh := UInt8.toNat_lt ((stamp.sha256 data).getD 0 0)
  have hlow := UInt8.toNat_lt ((stamp.sha256 data).getD 1 0)
  rw [checksum16]
  omega

@[simp] theorem length_withChecksum (payload : List UInt8) :
    (withChecksum stamp payload).length = payload.length + 2 := by
  simp [withChecksum]

theorem verifyChecksum_withChecksum {payload : List UInt8} (h : payload ≠ []) :
    verifyChecksum stamp (withChecksum stamp payload) = true := by
  have hlength : 0 < payload.length := length_pos_iff.mpr h
  have hlt := checksum16_lt stamp payload
  have hdata : (withChecksum stamp payload).take payload.length = payload := take_left
  have hhigh : (withChecksum stamp payload).getD payload.length 0 =
      UInt8.ofNat (checksum16 stamp payload / 256) := by
    simp [withChecksum]
  have hlow : (withChecksum stamp payload).getD (payload.length + 1) 0 =
      UInt8.ofNat (checksum16 stamp payload % 256) := by
    simp [withChecksum]
  have hlong : ¬ (withChecksum stamp payload).length < checksumSize + 1 := by
    rw [length_withChecksum, checksumSize]
    omega
  rw [verifyChecksum, if_neg hlong]
  simp only [length_withChecksum, checksumSize, Nat.add_sub_cancel, Nat.add_succ_sub_one, hdata,
    hhigh, hlow, UInt8.toNat_ofNat', decide_eq_true_eq]
  omega

/-! ## Zero-width characters -/

/-- The encoding of characters. -/
def utf8 (text : List Char) : Str := text.flatMap String.utf8EncodeChar

/-- Zero-width space: a bit 0. -/
def zwBit0 : Char := '\u200B'

/-- Zero-width non-joiner: a bit 1. -/
def zwBit1 : Char := '\u200C'

/-- Zero-width joiner: the start of a shard. -/
def zwStart : Char := '\u200D'

/-- Word joiner: the end of a shard. -/
def zwEnd : Char := '\u2060'

/-- Byte order mark: the end of a shard in older watermarks. -/
def zwEndLegacy : Char := '\uFEFF'

/-- The bits of a byte, the highest first. -/
def bitsOf (b : UInt8) : List Bool := (List.range 8).map fun i => b.toNat.testBit (7 - i)

/-- The character of a bit. -/
def bitChar (bit : Bool) : Char := if bit then zwBit1 else zwBit0

/-- The characters of bytes. -/
def bits (data : List UInt8) : List Char := data.flatMap fun b => (bitsOf b).map bitChar

def encodeZeroWidth (data : List UInt8) : List Char := zwStart :: (bits data ++ [zwEnd])

/-- The loop of `decodeBitsToBytes`. -/
def decodeLoop : List Char → List UInt8 → UInt8 → ℕ → List UInt8
  | [], bytes, _, bitCount => if bitCount ≠ 0 then [] else bytes
  | r :: rest, bytes, currentByte, bitCount =>
    if r = zwBit0 ∨ r = zwBit1 then
      let currentByte := currentByte <<< 1 ||| (if r = zwBit1 then 1 else 0)
      if bitCount + 1 = 8 then decodeLoop rest (bytes ++ [currentByte]) 0 0
      else decodeLoop rest bytes currentByte (bitCount + 1)
    else []

/-- `decodeBitsToBytes`; the nil slice is an empty one. -/
def decodeBitsToBytes (bits : List Char) : List UInt8 := decodeLoop bits [] 0 0

/-- One more bit at the end of a byte. -/
def pushBit (b : UInt8) (bit : Bool) : UInt8 := b <<< 1 ||| (if bit then 1 else 0)

theorem decodeLoop_bitChar (bit : Bool) (rest : List Char) (bytes : List UInt8) (b : UInt8)
    (n : ℕ) :
    decodeLoop (bitChar bit :: rest) bytes b n =
      if n + 1 = 8 then decodeLoop rest (bytes ++ [pushBit b bit]) 0 0
      else decodeLoop rest bytes (pushBit b bit) (n + 1) := by
  cases bit <;> rfl

theorem decodeLoop_map_bitChar {bs : List Bool} {n : ℕ} (h : bs.length + n = 8) (hn : n < 8)
    (rest : List Char) (bytes : List UInt8) (b : UInt8) :
    decodeLoop (bs.map bitChar ++ rest) bytes b n =
      decodeLoop rest (bytes ++ [bs.foldl pushBit b]) 0 0 := by
  induction bs generalizing b n with
  | nil =>
    rw [length_nil] at h
    omega
  | cons bit bs ih =>
    rw [length_cons] at h
    rw [map_cons, cons_append, decodeLoop_bitChar]
    by_cases hlast : n + 1 = 8
    · obtain rfl : bs = [] := length_eq_zero_iff.mp (by omega)
      rw [if_pos hlast]
      rfl
    · rw [if_neg hlast, ih (by omega) (by omega)]
      rfl

theorem foldl_bitsOf (b : UInt8) : (bitsOf b).foldl pushBit 0 = b := by
  have hall : ∀ n < 256, (bitsOf (UInt8.ofNat n)).foldl pushBit 0 =
      UInt8.ofNat n := by decide +kernel
  have hb := hall b.toNat (UInt8.toNat_lt b)
  rwa [UInt8.ofNat_toNat] at hb

theorem decodeLoop_bits (rest : List Char) (bytes : List UInt8) :
    decodeLoop (bits data ++ rest) bytes 0 0 = decodeLoop rest (bytes ++ data) 0 0 := by
  induction data generalizing bytes with
  | nil => simp [bits]
  | cons b data ih =>
    have hcons : bits (b :: data) ++ rest = (bitsOf b).map bitChar ++ (bits data ++ rest) := by
      simp [bits]
    rw [hcons, decodeLoop_map_bitChar (by simp [bitsOf]) (by decide), foldl_bitsOf, ih,
      append_assoc, singleton_append]

theorem decodeBitsToBytes_bits : decodeBitsToBytes (bits data) = data := by
  have h := decodeLoop_bits data [] []
  rwa [append_nil] at h

theorem mem_bits {data : List UInt8} {r : Char} (h : r ∈ bits data) : r = zwBit0 ∨ r = zwBit1 := by
  obtain ⟨b, -, h⟩ := mem_flatMap.mp h
  obtain ⟨bit, -, rfl⟩ := mem_map.mp h
  cases bit with
  | false => exact .inl rfl
  | true => exact .inr rfl

end Watermark

import Mathlib

/-!
# Little-endian words and CRC-32

`binary.LittleEndian` for 32-bit words and `crc32.ChecksumIEEE`.
-/

namespace Go

def putUint32 (n : ℕ) : List UInt8 :=
  [UInt8.ofNat n, UInt8.ofNat (n / 256), UInt8.ofNat (n / 65536), UInt8.ofNat (n / 16777216)]

/-- `binary.LittleEndian.Uint32` of the first four bytes. -/
def uint32 : List UInt8 → ℕ
  | a :: b :: c :: d :: _ => a.toNat + 256 * b.toNat + 65536 * c.toNat + 16777216 * d.toNat
  | _ => 0

@[simp] theorem length_putUint32 (n : ℕ) : (putUint32 n).length = 4 := rfl

theorem uint32_putUint32 {n : ℕ} (h : n < 2 ^ 32) (rest : List UInt8) :
    uint32 (putUint32 n ++ rest) = n := by
  simp only [putUint32, uint32, List.cons_append, UInt8.toNat_ofNat']
  omega

/-- One bit of the reflected CRC-32 division. -/
def crcBit (crc : UInt32) : UInt32 :=
  if crc &&& 1 = 1 then (crc >>> 1) ^^^ 0xEDB88320 else crc >>> 1

/-- One byte of the CRC-32 division. -/
def crcByte (crc : UInt32) (b : UInt8) : UInt32 :=
  (List.range 8).foldl (fun crc _ => crcBit crc) (crc ^^^ b.toUInt32)

def checksumIEEE (data : List UInt8) : UInt32 := data.foldl crcByte 0xFFFFFFFF ^^^ 0xFFFFFFFF

-- the check value of the algorithm, for the text "123456789"
example : checksumIEEE [49, 50, 51, 52, 53, 54, 55, 56, 57] = 0xCBF43926 := by decide +kernel

end Go

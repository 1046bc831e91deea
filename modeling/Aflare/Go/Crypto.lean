import Aflare.Go.Encoding

/-!
# Hash functions

The hash functions that the program calls, as functions that the development is uniform in: all
that is known of them is the form of their values. That one is free of collisions is a hypothesis
about the messages that occur.
-/

namespace Go

/-- The hash functions of the message authentication codes. -/
inductive HashAlgo
  | sha256
  | sm3
  deriving DecidableEq, Repr

/-- A digit as `hex.EncodeToString` writes it. -/
def isHex (b : UInt8) : Bool := isDigit b || (97 ≤ b && b ≤ 102)

/-- The hexadecimal text of 32 bytes. -/
def IsHex64 (s : Str) : Prop := s.length = 64 ∧ ∀ b ∈ s, isHex b = true
  deriving Decidable

theorem IsHex64.ne_nil {s : Str} (h : IsHex64 s) : s ≠ [] := by
  rintro rfl
  exact absurd h.1 (by decide)

theorem isHex_lt {b : UInt8} (h : isHex b = true) : b < 128 := by
  simp only [isHex, Bool.or_eq_true, Bool.and_eq_true, decide_eq_true_eq] at h
  rcases h with h | ⟨-, h⟩
  · exact isDigit_lt h
  · exact UInt8.lt_of_le_of_lt h (show (102 : UInt8) < 128 by decide)

theorem IsHex64.validUtf8 {s : Str} (h : IsHex64 s) : ValidUtf8 s :=
  validUtf8_of_ascii fun b hb => isHex_lt (h.2 b hb)

/-- The hash functions: the hexadecimal texts of the message authentication codes and of SHA-256,
and the key that PBKDF2 derives from a password. -/
structure Crypto where
  hmac : HashAlgo → Str → Str → Str
  sha256 : Str → Str
  pbkdf2 : Str → Str
  hmac_hex : ∀ algo key message, IsHex64 (hmac algo key message)
  sha256_hex : ∀ message, IsHex64 (sha256 message)
  pbkdf2_ne_nil : ∀ password, pbkdf2 password ≠ []

theorem isHex_hexDigit : ∀ n < 16, isHex (hexDigit n) = true := by decide

/-- The bytes of a hexadecimal text. -/
def hexEncode (bytes : List UInt8) : Str :=
  bytes.flatMap fun b => [hexDigit (b.toNat / 16), hexDigit (b.toNat % 16)]

/-- `hex.DecodeString`. -/
def hexDecode : Str → Option (List UInt8)
  | [] => some []
  | [_] => none
  | high :: low :: rest =>
    match hexValue high, hexValue low, hexDecode rest with
    | some high, some low, some bytes => some (UInt8.ofNat (high * 16 + low) :: bytes)
    | _, _, _ => none

theorem hexEncode_ascii (bytes : List UInt8) : ∀ b ∈ hexEncode bytes, b < 128 := by
  intro b hb
  obtain ⟨c, -, hb⟩ := List.mem_flatMap.mp hb
  simp only [List.mem_cons, List.not_mem_nil, or_false] at hb
  rcases hb with rfl | rfl
  · exact isHex_lt (isHex_hexDigit _ (Nat.div_lt_of_lt_mul (UInt8.toNat_lt c)))
  · exact isHex_lt (isHex_hexDigit _ (Nat.mod_lt _ (by decide)))

namespace Crypto

/-- No two of these uses of a hash function, each with its key and its message, collide. -/
def InjectiveOn (c : Crypto) (uses : List (HashAlgo × Str × Str)) : Prop :=
  ∀ u ∈ uses, ∀ v ∈ uses, c.hmac u.1 u.2.1 u.2.2 = c.hmac v.1 v.2.1 v.2.2 → u = v
  deriving Decidable

/-- A polynomial checksum. -/
def checksum (s : Str) : ℕ := s.foldl (fun acc b => (acc * 263 + b.toNat + 1) % 2 ^ 256) 0

/-- The lowest 64 hexadecimal digits of a number. -/
def hex64 (n : ℕ) : Str := (List.range 64).map fun i => hexDigit (n / 16 ^ i % 16)

theorem isHex64_hex64 (n : ℕ) : IsHex64 (hex64 n) := by
  refine ⟨by simp [hex64], fun b hb => ?_⟩
  obtain ⟨i, -, rfl⟩ := List.mem_map.mp hb
  exact isHex_hexDigit _ (Nat.mod_lt _ (by decide))

/-- Checksums in place of the hash functions. -/
def checked : Crypto where
  hmac algo key message := hex64 (checksum (key ++ (if algo = .sha256 then 1 else 2) :: message))
  sha256 message := hex64 (checksum message)
  pbkdf2 password := 0 :: password
  hmac_hex _ _ _ := isHex64_hex64 _
  sha256_hex _ := isHex64_hex64 _
  pbkdf2_ne_nil _ := by simp

end Crypto

end Go
